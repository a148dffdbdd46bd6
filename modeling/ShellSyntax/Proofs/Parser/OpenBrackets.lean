import Mathlib.Data.List.Infix
import Mathlib.Data.List.MinMax
import ShellSyntax.Proofs.Parser.Buffer

/-!
How many brackets are open. The brackets on the merged stack can be counted token by token, and the
tokens that the grammar does not see do not count.
-/

namespace ShellSyntax

def Opening.isBracket : Opening → Bool
  | bracket _ => true
  | literal => false

/-- How many brackets are open behind the tokens. -/
def openBrackets (tokens : List Token) : Nat :=
  ((Opening.followAll [] tokens).getD []).countP Opening.isBracket

/-- The largest number of brackets that are open at once. -/
def deepest (tokens : List Token) : Nat :=
  (tokens.inits.map openBrackets).foldr max 0

/-- How many brackets are open behind an operator spelled `text`, if `depth` are before it. -/
def depthBehind (text : String) (depth : Nat) : Nat :=
  if (Opener.ofSpelling? text).isSome then depth + 1
  else if (Lexer.closer? text).isSome then depth - 1
  else depth

def isNoBracket (text : String) : Bool :=
  (Opener.ofSpelling? text).isNone && (Lexer.closer? text).isNone

namespace Token

/-- How many brackets are open behind the token. -/
def depthBehind (t : Token) (depth : Nat) : Nat :=
  if t.kind = .op then ShellSyntax.depthBehind t.text depth else depth

end Token

variable {text : String} {t : Token} {depth : Nat}

theorem depthBehind_opener (h : (Opener.ofSpelling? text).isSome = true) :
    depthBehind text depth = depth + 1 :=
  if_pos h

theorem depthBehind_closer (h : (Lexer.closer? text).isSome = true) :
    depthBehind text depth = depth - 1 := by
  obtain ⟨closer, hcloser⟩ := Option.isSome_iff_exists.mp h
  simp [depthBehind, (Lexer.closer?_eq_some hcloser).2, hcloser]

theorem depthBehind_noBracket (h : isNoBracket text = true) : depthBehind text depth = depth := by
  rw [isNoBracket, Bool.and_eq_true, Option.isNone_iff_eq_none, Option.isNone_iff_eq_none] at h
  simp [depthBehind, h]

theorem depthBehind_mono {depth' : Nat} (h : depth ≤ depth') :
    depthBehind text depth ≤ depthBehind text depth' := by
  unfold depthBehind
  split
  · omega
  · split <;> omega

namespace Token

theorem depthBehind_of_op (h : t.kind = .op) :
    t.depthBehind depth = ShellSyntax.depthBehind t.text depth :=
  if_pos h

theorem depthBehind_of_kind (h : t.kind ≠ .op) : t.depthBehind depth = depth :=
  if_neg h

theorem depthBehind_noBracket (h : t.kind = .op → isNoBracket t.text = true) :
    t.depthBehind depth = depth := by
  by_cases hop : t.kind = .op
  · rw [depthBehind_of_op hop, ShellSyntax.depthBehind_noBracket (h hop)]
  · exact depthBehind_of_kind hop

theorem depthBehind_mono {depth' : Nat} (h : depth ≤ depth') :
    t.depthBehind depth ≤ t.depthBehind depth' := by
  unfold depthBehind
  split
  · exact ShellSyntax.depthBehind_mono h
  · exact h

theorem Lettered.depthBehind_le (lettered : t.Lettered)
    (hkind : t.kind = .op ∨ t.kind = .name ∨ t.kind = .word) :
    ShellSyntax.depthBehind t.text depth ≤ t.depthBehind depth := by
  rcases hkind with hop | hword
  · rw [depthBehind_of_op hop]
  · have hopener := lettered.not_opener hword
    have hother : t.kind ≠ .op := by
      rcases hword with hkind | hkind <;> simp [hkind]
    rw [depthBehind_of_kind hother, ShellSyntax.depthBehind, hopener]
    split
    case isTrue hopens => cases hopens
    case isFalse =>
      split
      · exact Nat.sub_le _ _
      · exact Nat.le_refl _

end Token

/-! ### Counting -/

theorem Opening.count_follow {open_ rest : List Opening} (h : follow open_ t = some rest) :
    rest.countP isBracket = t.depthBehind (open_.countP isBracket) := by
  have hplain (hkind : t.kind ≠ .op) (hsame : rest.countP isBracket = open_.countP isBracket) :
      rest.countP isBracket = t.depthBehind (open_.countP isBracket) := by
    rw [Token.depthBehind_of_kind hkind, hsame]
  unfold follow at h
  split at h
  case h_1 hkind | h_2 hkind | h_3 hkind | h_4 hkind =>
    split at h
    case isTrue hempty =>
      cases h
      exact hplain (by simp [hkind]) (by simp [List.isEmpty_iff.mp hempty])
    case isFalse => cases h
  case h_5 hkind =>
    cases h
    exact hplain (by simp [hkind]) (by simp [isBracket])
  case h_6 hkind =>
    split at h
    case h_1 =>
      cases h
      exact hplain (by simp [hkind]) (by simp [isBracket])
    case h_2 => cases h
  case h_7 hkind =>
    rw [Token.depthBehind_of_op hkind]
    split at h
    case h_1 hopener =>
      cases h
      rw [depthBehind_opener (by simp [hopener])]
      exact List.countP_cons_of_pos rfl
    case h_2 hcloser =>
      rw [depthBehind_closer (by simp [hcloser])]
      split at h
      case h_1 =>
        split at h
        case isTrue =>
          cases h
          rw [List.countP_cons_of_pos rfl, Nat.add_sub_cancel]
        case isFalse => cases h
      case h_2 => cases h
    case h_3 hopener hcloser =>
      cases h
      rw [depthBehind_noBracket (by simp [isNoBracket, hopener, hcloser])]
  case h_8 hother =>
    cases h
    exact hplain hother rfl

/-- How many brackets are open behind the tokens, if `depth` are before them. -/
def depthBehindAll (depth : Nat) (tokens : List Token) : Nat :=
  tokens.foldl (fun depth token => token.depthBehind depth) depth

theorem depthBehindAll_concat (depth : Nat) (tokens : List Token) (t : Token) :
    depthBehindAll depth (tokens ++ [t]) = t.depthBehind (depthBehindAll depth tokens) := by
  simp [depthBehindAll]

theorem Opening.count_followAll {open_ rest : List Opening} {tokens : List Token}
    (h : followAll open_ tokens = some rest) :
    rest.countP isBracket = depthBehindAll (open_.countP isBracket) tokens := by
  induction tokens generalizing open_ with
  | nil =>
    cases h
    rfl
  | cons token tokens induction =>
    rw [followAll, List.foldlM_cons, Option.bind_eq_bind, Option.bind_eq_some_iff] at h
    obtain ⟨next, hnext, hrest⟩ := h
    rw [induction hrest, count_follow hnext]
    rfl

theorem depthBehindAll_significant (raw : List Token) :
    depthBehindAll 0 (significant raw) = depthBehindAll 0 raw := by
  induction raw using List.reverseRecOn with
  | nil => rfl
  | append_singleton raw token induction =>
    rw [significant_concat, depthBehindAll_concat]
    split
    case isTrue hdropped =>
      have hkind : token.kind ≠ .op := by
        intro hop
        simp [TokenStream.isDropped, hop] at hdropped
      rw [induction, Token.depthBehind_of_kind hkind]
    case isFalse => rw [depthBehindAll_concat, induction]

/-! ### Sources -/

theorem openBrackets_le_deepest {before tokens : List Token} (h : before <+: tokens) :
    openBrackets before ≤ deepest tokens :=
  List.le_max_of_le' 0 (List.mem_map_of_mem ((List.mem_inits _ _).mpr h)) (Nat.le_refl _)

namespace Lexer

variable {source : Source} {tabSize : Nat} {tokens : List Token} {l : Lexer}

theorem Reaches.openBrackets_eq (reached : Reaches source tabSize tokens l) :
    openBrackets tokens = depthBehindAll 0 tokens := by
  obtain ⟨open_, hfollow, _⟩ := reached.foundInStep
  rw [followAll_append, Option.bind_eq_some_iff] at hfollow
  obtain ⟨rest, hrest, _⟩ := hfollow
  rw [openBrackets, hrest, Option.getD_some, Opening.count_followAll hrest]
  rfl

/-- Wherever the lexer is in a source that can be read to its end, no more brackets are open than
where most are. -/
theorem Reaches.openBrackets_le_deepest {raw : List Token}
    (hraw : (ofSource source tabSize).allTokens = .ok raw)
    (reached : Reaches source tabSize tokens l) : openBrackets tokens ≤ deepest raw := by
  obtain ⟨program, marker, hprogram, hmarker, hread⟩ := pulls_endless hraw
  have htokens := (hread tokens l reached).1
  rw [take_endless] at htokens
  obtain hwithin | hbehind := Nat.le_total tokens.length raw.length
  · rw [List.take_append_of_le_length hwithin] at htokens
    exact ShellSyntax.openBrackets_le_deepest (htokens ▸ List.take_prefix _ _)
  · have hlayout : marker.kind.isLayout = true := by
      rw [hmarker]
      rfl
    have hclosed : Opening.followAll [] tokens = some [] := by
      rw [htokens, List.take_append, List.take_of_length_le hbehind, List.take_replicate,
        followAll_append, wellNested_of_allTokens hraw]
      exact followAll_replicate _ hlayout
    rw [openBrackets, hclosed]
    exact Nat.zero_le _

end Lexer

end ShellSyntax
