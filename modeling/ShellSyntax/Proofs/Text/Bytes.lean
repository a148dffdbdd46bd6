import ShellSyntax.Source

/-! The lines of a file that holds a text are the lines of the text. -/

namespace ShellSyntax.Source

open String

theorem utf8EncodeChar_lineFeed : utf8EncodeChar '\n' = [10] := by
  decide

theorem not_mem_utf8EncodeChar {c : Char} (hc : c ≠ '\n') : 10 ∉ utf8EncodeChar c := by
  have hbyte {n : Nat} (hn : 10 < n % 256) : (10 : UInt8) ≠ UInt8.ofNat n := by
    intro hsame
    have htoNat := congrArg UInt8.toNat hsame
    rw [UInt8.toNat_ofNat'] at htoNat
    change 10 = n % 256 at htoNat
    omega
  unfold utf8EncodeChar
  dsimp only
  split
  case isTrue hsmall =>
    rw [List.mem_singleton]
    intro hsame
    apply hc
    have htoNat := congrArg UInt8.toNat hsame
    rw [UInt8.toNat_ofNat'] at htoNat
    change 10 = c.val.toNat % 256 at htoNat
    apply Char.ext
    apply UInt32.toNat_inj.mp
    change c.val.toNat = 10
    omega
  · split
    · simp only [List.mem_cons, List.not_mem_nil, or_false, not_or]
      exact ⟨hbyte (by omega), hbyte (by omega)⟩
    · split
      · simp only [List.mem_cons, List.not_mem_nil, or_false, not_or]
        exact ⟨hbyte (by omega), hbyte (by omega), hbyte (by omega)⟩
      · simp only [List.mem_cons, List.not_mem_nil, or_false, not_or]
        exact ⟨hbyte (by omega), hbyte (by omega), hbyte (by omega), hbyte (by omega)⟩

theorem utf8EncodeChar_ne_nil (c : Char) : utf8EncodeChar c ≠ [] := by
  unfold utf8EncodeChar
  dsimp only
  split
  · simp
  · split
    · simp
    · split <;> simp

theorem splitBytes_append {bytes : List UInt8} (rest : List UInt8) (hbytes : bytes ≠ [])
    (hline : 10 ∉ bytes) :
    splitBytes (bytes ++ rest) =
      match splitBytes rest with
      | [] => [bytes]
      | line :: lines => (bytes ++ line) :: lines := by
  induction bytes with
  | nil => exact absurd rfl hbytes
  | cons b bytes induction =>
    rw [List.mem_cons, not_or] at hline
    rw [List.cons_append, splitBytes, if_neg (Ne.symm hline.1)]
    cases bytes with
    | nil => rfl
    | cons b' bytes =>
      rw [induction (by simp) hline.2]
      cases splitBytes rest <;> rfl

theorem splitBytes_encoded (text : List Char) :
    splitBytes (text.flatMap utf8EncodeChar) =
      (Text.splitLines text).map (·.flatMap utf8EncodeChar) := by
  induction text with
  | nil => rfl
  | cons c rest induction =>
    rw [List.flatMap_cons, Text.splitLines]
    by_cases hc : c = '\n'
    · subst hc
      rw [utf8EncodeChar_lineFeed, if_pos rfl, List.singleton_append, splitBytes, if_pos rfl,
        induction]
      rfl
    · rw [if_neg hc, splitBytes_append _ (utf8EncodeChar_ne_nil c) (not_mem_utf8EncodeChar hc),
        induction]
      cases Text.splitLines rest with
      | nil => simp
      | cons line lines => simp

theorem decodeLine_encoded (line : List Char) :
    decodeLine (line.flatMap utf8EncodeChar) = .text line := by
  have hbytes : (⟨(line.flatMap utf8EncodeChar).toArray⟩ : ByteArray) =
      (String.ofList line).toByteArray := by
    rw [String.toByteArray_ofList]
    apply ByteArray.ext
    rw [List.utf8Encode, List.data_toByteArray]
  have hvalid : (⟨(line.flatMap utf8EncodeChar).toArray⟩ : ByteArray).IsValidUTF8 := by
    rw [hbytes]
    exact (String.ofList line).isValidUTF8
  rw [decodeLine, String.fromUTF8?, dif_pos hvalid]
  have hdecoded : String.fromUTF8 ⟨(line.flatMap utf8EncodeChar).toArray⟩ hvalid =
      String.ofList line := by
    apply String.toByteArray_inj.mp
    exact hbytes
  rw [hdecoded]
  exact congrArg SourceLine.text String.toList_ofList

theorem toList_toUTF8 (text : String) :
    text.toByteArray.data.toList = text.toList.flatMap utf8EncodeChar := by
  rw [← String.utf8Encode_toList, List.utf8Encode, List.toList_data_toByteArray]

theorem ofBytes_encoded (text : List Char) : ofBytes (text.flatMap utf8EncodeChar) = ofText text := by
  rw [ofBytes, splitBytes_encoded, List.map_map, ofText]
  apply List.map_congr_left
  intro line _
  exact decodeLine_encoded line

theorem ofBytes_toUTF8 (text : String) : ofBytes text.toUTF8.data.toList = ofString text := by
  have hbytes : text.toUTF8.data.toList = text.toList.flatMap utf8EncodeChar := toList_toUTF8 text
  rw [hbytes, ofBytes_encoded, ofString]

theorem flatten_splitBytes (bytes : List UInt8) : (splitBytes bytes).flatten = bytes := by
  induction bytes with
  | nil => rfl
  | cons b rest induction =>
    by_cases hb : b = 10
    · simp [splitBytes, hb, induction]
    · cases hlines : splitBytes rest with
      | nil => simp_all [splitBytes]
      | cons line lines => simp_all [splitBytes]

theorem encoded_of_decodeLine {bytes : List UInt8} {line : List Char}
    (h : decodeLine bytes = .text line) : bytes = line.flatMap utf8EncodeChar := by
  unfold decodeLine String.fromUTF8? at h
  split at h
  case h_2 => cases h
  case h_1 text htext =>
    cases h
    split at htext
    case isFalse => cases htext
    case isTrue hvalid =>
      cases htext
      rw [← toList_toUTF8]
      rfl

theorem encoded_of_decodeLines {rows : List (List UInt8)} {lines : List (List Char)}
    (h : rows.map decodeLine = lines.map .text) :
    rows = lines.map fun line => line.flatMap utf8EncodeChar := by
  induction rows generalizing lines with
  | nil =>
    obtain rfl : lines = [] := by simpa using h.symm
    rfl
  | cons row rows induction =>
    cases lines with
    | nil => cases h
    | cons line lines =>
      obtain ⟨hrow, hrows⟩ := List.cons.inj h
      rw [encoded_of_decodeLine hrow, induction hrows, List.map_cons]

theorem ofBytes_eq_ofText {bytes : List UInt8} {lines : List (List Char)}
    (h : ofBytes bytes = lines.map .text) : ofBytes bytes = ofText lines.flatten := by
  have hbytes : bytes = lines.flatten.flatMap utf8EncodeChar := by
    rw [← flatten_splitBytes bytes, encoded_of_decodeLines h]
    clear h
    induction lines with
    | nil => rfl
    | cons line lines induction =>
      rw [List.map_cons, List.flatten_cons, List.flatten_cons, List.flatMap_append, induction]
  rw [hbytes, ofBytes_encoded]

theorem lines?_ofText (text : List Char) : lines? (ofText text) = .ok (Text.splitLines text) := by
  have hread (lines : List (List Char)) : readAll (lines.map .text) = (lines, none) := by
    induction lines with
    | nil => rfl
    | cons line lines induction => simp [readAll, SourceLine.read, induction]
  rw [lines?, ofText, hread]

end ShellSyntax.Source
