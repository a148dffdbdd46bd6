import Mathlib.Data.List.Forall2
import Mathlib.Data.Nat.Digits.Defs
import ShellSyntax.Text.Escape

/-!
What the escapes of a string literal stand for. A literal is read from left to right, one character
or one escape at a time, by a relation that says which escapes there are. The decoder finds what it
reads, with one digit more: the digits of a code point may begin with a plus sign.
-/

namespace ShellSyntax

namespace Text

/-! ### Digits -/

/-- `c` is the hexadecimal digit of `value`, in either case. -/
def IsHexDigit (c : Char) (value : Nat) : Prop :=
  "0123456789abcdef".toList[value]? = some c ∨ "0123456789ABCDEF".toList[value]? = some c

def IsOctalDigit (c : Char) (value : Nat) : Prop :=
  "01234567".toList[value]? = some c

/-- `digits`, the highest one first, write the number of the character `c`. -/
def Numbers (base : Nat) (IsDigit : Char → Nat → Prop) (digits : List Char) (c : Char) : Prop :=
  ∃ values, List.Forall₂ IsDigit digits values ∧ c.toNat = Nat.ofDigits base values.reverse

/-- Hexadecimal digits, and nothing else, write the number of `c`. -/
def HexNumbers : List Char → Char → Prop :=
  Numbers 16 IsHexDigit

/-- A plus sign may stand in front of the digits. -/
def SignedHexNumbers (digits : List Char) (c : Char) : Prop :=
  HexNumbers digits c ∨ ∃ more, digits = '+' :: more ∧ HexNumbers more c

/-! ### The reference -/

/-- The letters that name one character behind a backslash. -/
def namedEscapes : List (Char × Char) :=
  [('\\', '\\'), ('\'', '\''), ('"', '"'), ('n', '\n'), ('t', '\t'), ('r', '\r'), ('a', '\x07'),
    ('b', '\x08'), ('f', '\x0c'), ('v', '\x0b')]

/-- The letters behind a backslash that a code point follows, and how many digits it has. -/
def codeEscapes : List (Char × Nat) :=
  [('x', 2), ('u', 4), ('U', 8)]

/-- Behind a backslash and in front of `behind` the characters `written` are an escape that stands
for `decoded`. -/
inductive Escape (Code : List Char → Char → Prop) (behind : List Char) :
    (written decoded : List Char) → Prop
  | joint : Escape Code behind ['\n'] []
  | named {letter c : Char} (hnamed : (letter, c) ∈ namedEscapes) : Escape Code behind [letter] [c]
  | octal {digits : List Char} {c : Char} (hsome : digits ≠ []) (hmost : digits.length ≤ 3)
      (hall : digits.length = 3 ∨ ∀ next ∈ behind.head?, ∀ value, ¬ IsOctalDigit next value)
      (hnumber : Numbers 8 IsOctalDigit digits c) : Escape Code behind digits [c]
  | code {letter c : Char} {digits : List Char} (hcode : (letter, digits.length) ∈ codeEscapes)
      (hnumber : Code digits c) : Escape Code behind (letter :: digits) [c]

/-- Some escape starts behind a backslash that `text` follows. -/
def StartsEscape (Code : List Char → Char → Prop) (text : List Char) : Prop :=
  ∃ written behind decoded, text = written ++ behind ∧ Escape Code behind written decoded

/-- Reading `text` from left to right yields `decoded`, where code points are what `Code` says. -/
inductive Decodes (Code : List Char → Char → Prop) : (text decoded : List Char) → Prop
  | nil : Decodes Code [] []
  | plain {c : Char} {rest decoded : List Char} (hc : c ≠ '\\') (hrest : Decodes Code rest decoded) :
      Decodes Code (c :: rest) (c :: decoded)
  | escape {written behind first decoded : List Char} (hescape : Escape Code behind written first)
      (hbehind : Decodes Code behind decoded) :
      Decodes Code ('\\' :: (written ++ behind)) (first ++ decoded)
  | unknown {next : Char} {rest decoded : List Char}
      (hnone : ¬ StartsEscape Code (next :: rest)) (hrest : Decodes Code rest decoded) :
      Decodes Code ('\\' :: next :: rest) ('\\' :: next :: decoded)
  | last : Decodes Code ['\\'] ['\\']

variable {text rest behind written decoded digits : List Char} {c d next letter : Char}
  {value base width used : Nat} {Code Code' : List Char → Char → Prop}

/-! ### Numbers -/

theorem getElem?_of_between (digits : List Char) (offset : Nat) {low high : Char}
    (hdigits : ∀ n ≤ high.toNat - low.toNat,
      digits[n + offset]? = some (Char.ofNat (low.toNat + n)))
    (h : low ≤ c ∧ c ≤ high) : digits[c.toNat - low.toNat + offset]? = some c := by
  have hlow : low.toNat ≤ c.toNat := h.1
  have hhigh : c.toNat ≤ high.toNat := h.2
  rw [hdigits _ (by omega), Nat.add_sub_cancel' hlow, Char.ofNat_toNat]

theorem octalDigit?_eq_some : octalDigit? c = some value ↔ IsOctalDigit c value := by
  constructor
  · intro h
    unfold octalDigit? at h
    split at h
    case isTrue hc =>
      rw [← Option.some.inj h]
      exact getElem?_of_between _ 0 (by decide) hc
    case isFalse => cases h
  · intro h
    have hdigit : ∀ i : Fin 8, octalDigit? "01234567".toList[i] = some i.val := by
      decide
    obtain ⟨hlt, rfl⟩ := List.getElem?_eq_some_iff.mp h
    exact hdigit ⟨value, hlt⟩

theorem hexDigit?_eq_some : hexDigit? c = some value ↔ IsHexDigit c value := by
  constructor
  · intro h
    unfold hexDigit? at h
    split_ifs at h with hdecimal hlower hupper
    · have hc : '0' ≤ c ∧ c ≤ '9' := by
        simpa [Char.isDigit, Char.le_def] using hdecimal
      rw [← Option.some.inj h]
      exact .inl (getElem?_of_between _ 0 (by decide) hc)
    · rw [← Option.some.inj h]
      exact .inl (getElem?_of_between _ 10 (by decide) hlower)
    · rw [← Option.some.inj h]
      exact .inr (getElem?_of_between _ 10 (by decide) hupper)
  · rintro (h | h)
    · have hdigit : ∀ i : Fin 16, hexDigit? "0123456789abcdef".toList[i] = some i.val := by
        decide
      obtain ⟨hlt, rfl⟩ := List.getElem?_eq_some_iff.mp h
      exact hdigit ⟨value, hlt⟩
    · have hdigit : ∀ i : Fin 16, hexDigit? "0123456789ABCDEF".toList[i] = some i.val := by
        decide
      obtain ⟨hlt, rfl⟩ := List.getElem?_eq_some_iff.mp h
      exact hdigit ⟨value, hlt⟩

theorem scalar?_eq_some : scalar? value = some c ↔ c.toNat = value := by
  unfold scalar?
  constructor
  · intro h
    by_cases hvalid : value.isValidChar
    · rw [dif_pos hvalid] at h
      cases h
      rfl
    · rw [dif_neg hvalid] at h
      cases h
  · rintro rfl
    have hvalid : c.toNat.isValidChar := c.valid
    rw [dif_pos hvalid]
    rfl

theorem foldl_eq_ofDigits (base : Nat) (values : List Nat) :
    values.foldl (fun value digit => value * base + digit) 0 = Nat.ofDigits base values.reverse := by
  rw [Nat.ofDigits_eq_foldr, List.foldl_eq_foldr_reverse]
  simp [Nat.add_comm, Nat.mul_comm]

theorem foldlM_hexDigit?_eq_some {start : Nat} :
    digits.foldlM (fun value c => (hexDigit? c).map (value * 16 + ·)) start = some value ↔
      ∃ values, List.Forall₂ IsHexDigit digits values ∧
        values.foldl (fun value digit => value * 16 + digit) start = value := by
  induction digits generalizing start with
  | nil => simp
  | cons c digits induction =>
    simp only [List.foldlM_cons, Option.bind_eq_bind, Option.bind_eq_some_iff, Option.map_eq_some_iff,
      hexDigit?_eq_some, induction]
    constructor
    · rintro ⟨_, ⟨digit, hdigit, rfl⟩, values, hvalues, hvalue⟩
      exact ⟨digit :: values, .cons hdigit hvalues, hvalue⟩
    · rintro ⟨_, hvalues, hvalue⟩
      cases hvalues with
      | cons hdigit hvalues => exact ⟨_, ⟨_, hdigit, rfl⟩, _, hvalues, hvalue⟩

theorem foldlM_bind_scalar?_eq_some :
    (digits.foldlM (fun value c => (hexDigit? c).map (value * 16 + ·)) 0).bind scalar? = some c ↔
      HexNumbers digits c := by
  simp only [Option.bind_eq_some_iff, foldlM_hexDigit?_eq_some, scalar?_eq_some, foldl_eq_ofDigits]
  constructor
  · rintro ⟨_, ⟨values, hvalues, rfl⟩, hc⟩
    exact ⟨values, hvalues, hc⟩
  · rintro ⟨values, hvalues, hc⟩
    exact ⟨_, ⟨values, hvalues, rfl⟩, hc⟩

theorem not_isHexDigit_plus : ¬ IsHexDigit '+' value := by
  rintro (h | h)
  · exact absurd (List.mem_of_getElem? h) (by decide)
  · exact absurd (List.mem_of_getElem? h) (by decide)

theorem not_hexNumbers_plus : ¬ HexNumbers ('+' :: digits) c := by
  rintro ⟨_, hvalues, -⟩
  cases hvalues with
  | cons hplus _ => exact not_isHexDigit_plus hplus

theorem hexNumber?_bind_scalar?_eq_some (hmany : 2 ≤ digits.length) :
    (hexNumber? digits).bind scalar? = some c ↔ SignedHexNumbers digits c := by
  match digits with
  | first :: second :: more =>
    by_cases hplus : first = '+'
    · subst hplus
      have hread : hexNumber? ('+' :: second :: more) = (second :: more).foldlM
          (fun value c => (hexDigit? c).map (value * 16 + ·)) 0 := rfl
      rw [hread, foldlM_bind_scalar?_eq_some]
      simp [SignedHexNumbers, not_hexNumbers_plus]
    · have hread : hexNumber? (first :: second :: more) = (first :: second :: more).foldlM
          (fun value c => (hexDigit? c).map (value * 16 + ·)) 0 := by
        simp only [hexNumber?, List.head?_cons, Option.some_inj, if_neg hplus]
        rfl
      rw [hread, foldlM_bind_scalar?_eq_some]
      simp [SignedHexNumbers, hplus]

theorem codePoint?_append (hlength : digits.length = width) :
    codePoint? width (digits ++ rest) = (hexNumber? digits).bind scalar? := by
  subst hlength
  simp [codePoint?]

theorem exists_digits_of_codePoint? (h : codePoint? width text = some c) :
    ∃ digits rest, text = digits ++ rest ∧ digits.length = width ∧
      (hexNumber? digits).bind scalar? = some c := by
  unfold codePoint? at h
  dsimp only at h
  split at h
  case isTrue hlength =>
    exact ⟨text.take width, text.drop width, (List.take_append_drop ..).symm, hlength, h⟩
  case isFalse => cases h

/-! ### Octal runs -/

theorem takeWhile_take_append {p : Char → Bool} {run : List Char} {count : Nat}
    (hrun : ∀ c ∈ run, p c = true) (hmost : run.length ≤ count)
    (hall : run.length = count ∨ ∀ c ∈ behind.head?, ¬ p c = true) :
    ((run ++ behind).take count).takeWhile p = run := by
  induction run generalizing count with
  | nil =>
    cases count with
    | zero => rfl
    | succ count =>
      cases behind with
      | nil => rfl
      | cons c behind =>
        exact List.takeWhile_cons_of_neg (hall.resolve_left (by simp) c rfl)
  | cons c run induction =>
    cases count with
    | zero => cases hmost
    | succ count =>
      rw [List.cons_append, List.take_succ_cons,
        List.takeWhile_cons_of_pos (hrun c List.mem_cons_self),
        induction (fun d hd => hrun d (List.mem_cons_of_mem _ hd)) (Nat.le_of_succ_le_succ hmost)
          (hall.imp_left Nat.succ.inj)]

theorem exists_run (p : Char → Bool) (count : Nat) (text : List Char) :
    ∃ run behind, text = run ++ behind ∧ (text.take count).takeWhile p = run ∧
      (∀ c ∈ run, p c = true) ∧ run.length ≤ count ∧
      (run.length = count ∨ ∀ c ∈ behind.head?, ¬ p c = true) := by
  induction count generalizing text with
  | zero => exact ⟨[], text, rfl, rfl, by simp, le_rfl, .inl rfl⟩
  | succ count induction =>
    cases text with
    | nil => exact ⟨[], [], rfl, rfl, by simp, Nat.zero_le _, .inr (by simp)⟩
    | cons c rest =>
      by_cases hc : p c = true
      · obtain ⟨run, behind, rfl, hread, hrun, hmost, hall⟩ := induction rest
        refine ⟨c :: run, behind, rfl, ?_, List.forall_mem_cons.mpr ⟨hc, hrun⟩,
          Nat.succ_le_succ hmost, hall.imp_left (congrArg Nat.succ)⟩
        rw [List.take_succ_cons, List.takeWhile_cons_of_pos hc, hread]
      · refine ⟨[], c :: rest, rfl, ?_, by simp, Nat.zero_le _, .inr ?_⟩
        · rw [List.take_succ_cons, List.takeWhile_cons_of_neg hc]
        · simpa using hc

theorem foldl_octalDigit? {values : List Nat} {start : Nat}
    (hvalues : List.Forall₂ IsOctalDigit digits values) :
    digits.foldl (fun value c => value * 8 + (octalDigit? c).getD 0) start =
      values.foldl (fun value digit => value * 8 + digit) start := by
  induction hvalues generalizing start with
  | nil => rfl
  | cons hdigit _ induction =>
    rw [List.foldl_cons, List.foldl_cons, octalDigit?_eq_some.mpr hdigit, Option.getD_some, induction]

theorem exists_octal_char {values : List Nat}
    (hvalues : List.Forall₂ IsOctalDigit digits values) (hmost : digits.length ≤ 3) :
    ∃ c : Char, c.toNat = Nat.ofDigits 8 values.reverse := by
  have hdigits : ∀ digit ∈ values, digit < 8 := by
    clear hmost
    induction hvalues with
    | nil => simp
    | cons hdigit _ induction =>
      exact List.forall_mem_cons.mpr ⟨(List.getElem?_eq_some_iff.mp hdigit).1, induction⟩
  have hlt : Nat.ofDigits 8 values.reverse < 8 ^ values.reverse.length :=
    Nat.ofDigits_lt_base_pow_length (by decide) fun digit h => hdigits digit (List.mem_reverse.mp h)
  have hle : 8 ^ values.reverse.length ≤ 8 ^ 3 := by
    rw [List.length_reverse, ← hvalues.length_eq]
    exact Nat.pow_le_pow_right (by decide) hmost
  have hvalid : (Nat.ofDigits 8 values.reverse).isValidChar := .inl (by omega)
  exact ⟨Char.ofNatAux _ hvalid, scalar?_eq_some.mp (dif_pos hvalid)⟩

theorem octal_values_iff :
    (∃ values, List.Forall₂ IsOctalDigit digits values) ↔
      ∀ c ∈ digits, (octalDigit? c).isSome = true := by
  induction digits with
  | nil => simp
  | cons c digits induction =>
    rw [List.forall_mem_cons, ← induction, Option.isSome_iff_exists]
    constructor
    · rintro ⟨_, hvalues⟩
      cases hvalues with
      | cons hvalue hvalues => exact ⟨⟨_, octalDigit?_eq_some.mpr hvalue⟩, _, hvalues⟩
    · rintro ⟨⟨value, hvalue⟩, values, hvalues⟩
      exact ⟨value :: values, .cons (octalDigit?_eq_some.mp hvalue) hvalues⟩

theorem foldl_octal_run {values : List Nat} {first : Nat}
    (hvalues : List.Forall₂ IsOctalDigit digits values) :
    digits.foldl (fun value c => value * 8 + (octalDigit? c).getD 0) first =
      Nat.ofDigits 8 (first :: values).reverse := by
  rw [foldl_octalDigit? hvalues, ← foldl_eq_ofDigits, List.foldl_cons, Nat.zero_mul, Nat.zero_add]

theorem no_octal_head : (∀ c ∈ behind.head?, ¬ (octalDigit? c).isSome = true) ↔
    ∀ c ∈ behind.head?, ∀ value, ¬ IsOctalDigit c value := by
  simp only [Option.isSome_iff_exists, octalDigit?_eq_some, not_exists]

/-! ### One escape -/

theorem letterEscape?_eq_some : letterEscape? letter = some c ↔ (letter, c) ∈ namedEscapes := by
  constructor
  · intro h
    unfold letterEscape? at h
    split at h
    all_goals first | (cases h; decide) | cases h
  · intro h
    have hall : ∀ entry ∈ namedEscapes, letterEscape? entry.1 = some entry.2 := by
      decide
    exact hall _ h

theorem codeWidth?_eq_some : codeWidth? letter = some width ↔ (letter, width) ∈ codeEscapes := by
  constructor
  · intro h
    unfold codeWidth? at h
    split at h
    all_goals first | (cases h; decide) | cases h
  · intro h
    have hall : ∀ entry ∈ codeEscapes, codeWidth? entry.1 = some entry.2 := by
      decide
    exact hall _ h

theorem octal_class (h : IsOctalDigit c value) : c ≠ '\n' ∧ letterEscape? c = none := by
  have hall : ∀ c ∈ "01234567".toList, c ≠ '\n' ∧ letterEscape? c = none := by
    simp [letterEscape?]
  exact hall c (List.mem_of_getElem? h)

theorem code_class (h : (letter, width) ∈ codeEscapes) :
    letter ≠ '\n' ∧ letterEscape? letter = none ∧ octalDigit? letter = none ∧ 2 ≤ width := by
  have hall : ∀ entry ∈ codeEscapes, entry.1 ≠ '\n' ∧ letterEscape? entry.1 = none ∧
      octalDigit? entry.1 = none ∧ 2 ≤ entry.2 := by
    decide
  exact hall _ h

theorem Escape.read (h : Escape SignedHexNumbers behind written decoded) :
    ∃ next used, written = next :: used ∧ escape next (used ++ behind) = (decoded, used.length) := by
  cases h with
  | joint => exact ⟨'\n', [], rfl, rfl⟩
  | @named letter c hnamed =>
    have hletter : letter ≠ '\n' := by
      rintro rfl
      exact absurd (letterEscape?_eq_some.mpr hnamed) (by simp [letterEscape?])
    refine ⟨letter, [], rfl, ?_⟩
    simp [escape, hletter, letterEscape?_eq_some.mpr hnamed]
  | @octal _ c hsome hmost hall hnumber =>
    obtain ⟨_, hvalues, hc⟩ := hnumber
    cases hvalues with
    | nil => exact absurd rfl hsome
    | @cons next first more values hfirst hvalues =>
      obtain ⟨hnext, hletter⟩ := octal_class hfirst
      have hread : ((more ++ behind).take 2).takeWhile (fun c => (octalDigit? c).isSome) = more :=
        takeWhile_take_append (octal_values_iff.mp ⟨_, hvalues⟩) (Nat.le_of_succ_le_succ hmost)
          (hall.imp Nat.succ.inj no_octal_head.mpr)
      refine ⟨next, more, rfl, ?_⟩
      unfold escape
      rw [if_neg hnext, hletter]
      dsimp only
      rw [octalDigit?_eq_some.mpr hfirst]
      dsimp only
      rw [hread, foldl_octal_run hvalues, scalar?_eq_some.mpr hc]
      rfl
  | @code letter c digits hcode hnumber =>
    obtain ⟨hfeed, hletter, hdigit, hmany⟩ := code_class hcode
    refine ⟨letter, digits, rfl, ?_⟩
    unfold escape
    rw [if_neg hfeed, hletter]
    dsimp only
    rw [hdigit]
    dsimp only
    rw [codeWidth?_eq_some.mpr hcode]
    dsimp only
    rw [codePoint?_append rfl, (hexNumber?_bind_scalar?_eq_some hmany).mpr hnumber]

theorem escape_of_not_startsEscape (h : ¬ StartsEscape SignedHexNumbers (next :: rest)) :
    escape next rest = (['\\', next], 0) := by
  unfold escape
  split
  case isTrue hfeed =>
    subst hfeed
    exact absurd ⟨_, _, _, rfl, .joint⟩ h
  case isFalse =>
    split
    case h_1 c hletter =>
      exact absurd ⟨[next], rest, [c], rfl, .named (letterEscape?_eq_some.mp hletter)⟩ h
    case h_2 =>
      split
      case h_1 first hfirst =>
        obtain ⟨more, behind, rfl, -, hrun, hmost, hall⟩ :=
          exists_run (fun c => (octalDigit? c).isSome) 2 rest
        obtain ⟨values, hvalues⟩ := octal_values_iff.mpr hrun
        have hvalues := List.Forall₂.cons (octalDigit?_eq_some.mp hfirst) hvalues
        obtain ⟨c, hc⟩ := exists_octal_char hvalues (Nat.succ_le_succ hmost)
        exact absurd ⟨next :: more, behind, [c], rfl, .octal (List.cons_ne_nil _ _)
          (Nat.succ_le_succ hmost) (hall.imp (congrArg Nat.succ) no_octal_head.mp)
          ⟨_, hvalues, hc⟩⟩ h
      case h_2 =>
        split
        case h_1 width hwidth =>
          split
          case h_1 c hread =>
            obtain ⟨digits, behind, rfl, rfl, hpoint⟩ := exists_digits_of_codePoint? hread
            have hcode := codeWidth?_eq_some.mp hwidth
            rw [hexNumber?_bind_scalar?_eq_some (code_class hcode).2.2.2] at hpoint
            exact absurd ⟨next :: digits, behind, [c], rfl, .code hcode hpoint⟩ h
          case h_2 => rfl
        case h_2 => rfl

/-! ### The whole text -/

@[simp] theorem decodeEscapes_nil : decodeEscapes [] = [] := by
  rw [decodeEscapes]

theorem decodeEscapes_cons (h : c = '\\' → rest = []) :
    decodeEscapes (c :: rest) = c :: decodeEscapes rest := by
  rw [decodeEscapes]
  rintro next others hc rfl
  cases h hc

theorem decodeEscapes_escape (h : escape next rest = (decoded, used)) :
    decodeEscapes ('\\' :: next :: rest) = decoded ++ decodeEscapes (rest.drop used) := by
  rw [decodeEscapes, h]

/-- The decoder finds what the reference with signed code points reads, and nothing else. -/
theorem decodes_signed_iff :
    Decodes SignedHexNumbers text decoded ↔ decodeEscapes text = decoded := by
  constructor
  · intro h
    induction h with
    | nil => exact decodeEscapes_nil
    | plain hc _ induction => rw [decodeEscapes_cons fun h => absurd h hc, induction]
    | escape hescape _ induction =>
      obtain ⟨next, used, rfl, hread⟩ := hescape.read
      rw [List.cons_append, decodeEscapes_escape hread, List.drop_left, induction]
    | unknown hnone _ induction =>
      rw [decodeEscapes_escape (escape_of_not_startsEscape hnone), List.drop_zero, induction]
      rfl
    | last => rw [decodeEscapes_cons fun _ => rfl, decodeEscapes_nil]
  · rintro rfl
    induction text using decodeEscapes.induct with
    | case1 =>
      rw [decodeEscapes_nil]
      exact .nil
    | case2 next rest first used hread induction =>
      rw [decodeEscapes_escape hread]
      by_cases hstarts : StartsEscape SignedHexNumbers (next :: rest)
      · obtain ⟨_, behind, decoded, htext, hescape⟩ := hstarts
        obtain ⟨_, digits, rfl, hescaped⟩ := hescape.read
        rw [List.cons_append] at htext
        obtain ⟨rfl, rfl⟩ := List.cons.inj htext
        cases hread.symm.trans hescaped
        rw [List.drop_left] at induction ⊢
        exact .escape hescape induction
      · cases hread.symm.trans (escape_of_not_startsEscape hstarts)
        exact .unknown hstarts induction
    | case3 c rest hlast induction =>
      by_cases hc : c = '\\'
      · subst hc
        cases rest with
        | nil =>
          rw [decodeEscapes_cons fun _ => rfl, decodeEscapes_nil]
          exact .last
        | cons next others => exact (hlast next others rfl rfl).elim
      · rw [decodeEscapes_cons fun h => absurd h hc]
        exact .plain hc induction

/-! ### Signs -/

/-- Somewhere in the text a plus sign stands where the digits of a code point should begin. -/
def SignsCode (text : List Char) : Prop :=
  ∃ entry ∈ codeEscapes, ['\\', entry.1, '+'] <:+: text

theorem Escape.congr (h : Escape Code behind written decoded)
    (hcode : ∀ letter digits c, written = letter :: digits →
      (letter, digits.length) ∈ codeEscapes → Code digits c → Code' digits c) :
    Escape Code' behind written decoded := by
  cases h with
  | joint => exact .joint
  | named hnamed => exact .named hnamed
  | octal hsome hmost hall hnumber => exact .octal hsome hmost hall hnumber
  | code hentry hnumber => exact .code hentry (hcode _ _ _ rfl hentry hnumber)

/-- Two readings agree on a text in which they agree on all digits behind a backslash and a
letter. -/
theorem Decodes.congr (h : Decodes Code text decoded)
    (hcode : ∀ letter digits c, '\\' :: letter :: digits <:+: text →
      (letter, digits.length) ∈ codeEscapes → (Code digits c ↔ Code' digits c)) :
    Decodes Code' text decoded := by
  induction h with
  | nil => exact .nil
  | plain hc _ induction =>
    exact .plain hc (induction fun letter digits c hwithin =>
      hcode letter digits c (hwithin.trans (List.suffix_cons ..).isInfix))
  | escape hescape _ induction =>
    refine .escape (hescape.congr ?_) (induction fun letter digits c hwithin =>
      hcode letter digits c (hwithin.trans ?_))
    · rintro letter digits c rfl hentry
      exact (hcode letter digits c (List.prefix_append _ _).isInfix hentry).mp
    · exact ((List.suffix_append ..).trans (List.suffix_cons ..)).isInfix
  | unknown hnone _ induction =>
    refine .unknown ?_ (induction fun letter digits c hwithin =>
      hcode letter digits c (hwithin.trans ?_))
    · rintro ⟨written, behind, decoded, htext, hescape⟩
      refine hnone ⟨written, behind, decoded, htext, hescape.congr ?_⟩
      rintro letter digits c rfl hentry
      rw [htext] at hcode
      exact (hcode letter digits c (List.prefix_append _ _).isInfix hentry).mpr
    · exact ((List.suffix_cons ..).trans (List.suffix_cons ..)).isInfix
  | last => exact .last

theorem signedHexNumbers_iff (hsign : ¬ SignsCode text)
    (hwithin : '\\' :: letter :: digits <:+: text) (hentry : (letter, digits.length) ∈ codeEscapes) :
    SignedHexNumbers digits c ↔ HexNumbers digits c := by
  refine ⟨fun h => h.resolve_right ?_, .inl⟩
  rintro ⟨more, rfl, -⟩
  exact hsign ⟨_, hentry, List.IsInfix.trans (List.prefix_append ['\\', letter, '+'] more).isInfix
    hwithin⟩

/-- The text of a string literal is decoded as the reference reads it, but for signed code points:
the digits behind `\x`, `\u` and `\U` may begin with a plus sign. -/
theorem escapes_decoded (text decoded : List Char) :
    (Decodes SignedHexNumbers text decoded ↔ decodeEscapes text = decoded) ∧
      (¬ SignsCode text → (Decodes HexNumbers text decoded ↔ decodeEscapes text = decoded)) := by
  refine ⟨decodes_signed_iff, fun hsign => ?_⟩
  rw [← decodes_signed_iff]
  constructor
  · intro h
    exact h.congr fun letter digits c hwithin hentry => (signedHexNumbers_iff hsign hwithin hentry).symm
  · intro h
    exact h.congr fun letter digits c hwithin hentry => signedHexNumbers_iff hsign hwithin hentry

/-- What hexadecimal and octal escapes read as where no digits are signed. -/
theorem escapes_decoded_unsigned :
    ¬ SignsCode ['\\', 'x', '4', '1', '\\', '1', '0', '1', '7', '\\', 'q'] ∧
      Decodes HexNumbers ['\\', 'x', '4', '1', '\\', '1', '0', '1', '7', '\\', 'q']
        ['A', 'A', '7', '\\', 'q'] := by
  have hsign : ¬ SignsCode ['\\', 'x', '4', '1', '\\', '1', '0', '1', '7', '\\', 'q'] := by
    unfold SignsCode
    decide
  have hread : decodeEscapes ['\\', 'x', '4', '1', '\\', '1', '0', '1', '7', '\\', 'q'] =
      ['A', 'A', '7', '\\', 'q'] := by
    decide +kernel
  exact ⟨hsign, ((escapes_decoded _ _).2 hsign).mpr hread⟩

/-- A plus sign and one digit are taken for two digits. -/
theorem signed_code_point_decoded :
    ¬ ∀ text decoded, Decodes HexNumbers text decoded → decodeEscapes text = decoded := by
  intro claimed
  have hnone : ¬ StartsEscape HexNumbers ['x', '+', '4'] := by
    rintro ⟨written, behind, decoded, htext, hescape⟩
    cases hescape with
    | joint => simp at htext
    | named hnamed =>
      obtain ⟨rfl, -⟩ := List.cons.inj htext
      exact absurd (letterEscape?_eq_some.mpr hnamed) (by simp [letterEscape?])
    | octal hsome _ _ hnumber =>
      obtain ⟨_, hvalues, -⟩ := hnumber
      cases hvalues with
      | nil => exact hsome rfl
      | cons hdigit _ =>
        obtain ⟨rfl, -⟩ := List.cons.inj htext
        exact absurd (octalDigit?_eq_some.mpr hdigit) (by simp [octalDigit?])
    | @code _ _ digits hcode hnumber =>
      cases digits with
      | nil => exact absurd (code_class hcode).2.2.2 (by decide)
      | cons sign digits =>
        obtain ⟨-, htext⟩ := List.cons.inj htext
        obtain ⟨rfl, -⟩ := List.cons.inj htext
        exact not_hexNumbers_plus hnumber
  have hkept : Decodes HexNumbers ['\\', 'x', '+', '4'] ['\\', 'x', '+', '4'] :=
    .unknown hnone (.plain (by decide) (.plain (by decide) .nil))
  have hread : decodeEscapes ['\\', 'x', '+', '4'] = ['\x04'] := by
    decide +kernel
  exact absurd (hread.symm.trans (claimed _ _ hkept)) (by decide)

end Text

end ShellSyntax
