import ShellSyntax.Language.Command
import ShellSyntax.Proofs.Tree.Sound

/-!
Literals and arguments are put together from pieces. Whatever is merged, dropped or put in a list on
the way, no node stands in the result that did not stand in a piece. Merging keeps pieces apart that
cannot be one: literal text joins the literal text before it, and a word the word that it touches,
so that neither stands next to another of its kind.
-/

namespace ShellSyntax

namespace Language

variable {n : Node}

/-! ### Nodes of adjacent strings -/

theorem mem_nodes_add {parts : List FormatPart} {part : FormatPart}
    (hn : n ∈ nodes (FormatPart.add parts part)) : n ∈ nodes parts ∨ n ∈ nodes part := by
  have hconcat (h : n ∈ nodes (parts ++ [part])) : n ∈ nodes parts ∨ n ∈ nodes part := by
    simpa using h
  unfold FormatPart.add at hn
  split at hn
  · split at hn
    · exact .inl hn
    · split at hn
      · rw [nodes_append, List.mem_append] at hn
        rcases hn with hbefore | hjoined
        · exact .inl (mem_nodes_dropLast hbefore)
        · cases hjoined
      · exact hconcat hn
  · exact hconcat hn

theorem mem_nodes_foldl_add {parts others : List FormatPart}
    (hn : n ∈ nodes (others.foldl FormatPart.add parts)) : n ∈ nodes parts ∨ n ∈ nodes others := by
  induction others generalizing parts with
  | nil => exact .inl hn
  | cons other others induction =>
    rw [nodes_cons, List.mem_append]
    rcases induction hn with hadded | hothers
    · exact (mem_nodes_add hadded).imp_right .inl
    · exact .inr (.inr hothers)

instance : HasNodes Gathered where
  nodes g := nodes g.parts

theorem Gathered.mem_nodes_addString {g : Gathered} {token : Token}
    (hn : n ∈ nodes (g.addString token)) : n ∈ nodes g := by
  unfold Gathered.addString at hn
  generalize StringLiteral.split token.text.toList = flagged at hn
  obtain ⟨flags, body⟩ := flagged
  have hadded : n ∈ nodes (FormatPart.add g.parts
      (.literal (String.ofList (if flags.raw then body else Text.decodeEscapes body)))) := hn
  rcases mem_nodes_add hadded with hbefore | hliteral
  · exact hbefore
  · cases hliteral

theorem Gathered.mem_nodes_literal {g : Gathered} (hn : n ∈ nodes g.literal) : n ∈ nodes g := by
  unfold Gathered.literal at hn
  split at hn
  · exact hn
  · cases hn

/-! ### Nodes of pieces that touch -/

theorem mem_nodes_joinPieces {parts : List CommandArg} {right : CommandArg}
    (hn : n ∈ nodes (joinPieces parts right)) : n ∈ nodes parts ∨ n ∈ nodes right := by
  unfold joinPieces at hn
  split at hn
  · rw [nodes_append, List.mem_append] at hn
    rcases hn with hbefore | hjoined
    · exact .inl (mem_nodes_dropLast hbefore)
    · cases hjoined
  · simpa using hn

theorem mem_nodes_fuse {left right : CommandArg} (hn : n ∈ nodes (fuse left right)) :
    n ∈ nodes left ∨ n ∈ nodes right := by
  unfold fuse at hn
  split at hn
  · cases hn
  · rw [CommandArg.nodes_concat] at hn ⊢
    exact mem_nodes_joinPieces hn
  · simpa [CommandArg.nodes_concat] using hn

theorem mem_nodes_addPiece {argv : List CommandArg} {piece : CommandArg} {touches : Bool}
    (hn : n ∈ nodes (addPiece argv piece touches)) : n ∈ nodes argv ∨ n ∈ nodes piece := by
  unfold addPiece at hn
  split at hn
  case h_1 last hlast =>
    split at hn
    · rw [nodes_append, List.mem_append] at hn
      rcases hn with hbefore | hfused
      · exact .inl (mem_nodes_dropLast hbefore)
      · rw [nodes_cons, nodes_nil, List.append_nil] at hfused
        refine (mem_nodes_fuse hfused).imp_left fun hleft => ?_
        exact mem_nodes.mpr ⟨last, List.mem_of_getLast? hlast, hleft⟩
    · simpa using hn
  case h_2 => exact .inr (by simpa using hn)

end Language

section Chains

variable {α : Type} {R : α → α → Prop} {P : α → Prop} {items : List α} {last new : α}

theorem isChain_concat (h : items.IsChain R) (hfits : ∀ last ∈ items.getLast?, R last new) :
    (items ++ [new]).IsChain R := by
  refine List.isChain_append.mpr ⟨h, .singleton new, fun last hlast next hnext => ?_⟩
  cases hnext
  exact hfits last hlast

theorem isChain_replaceLast (h : items.IsChain R) (hlast : items.getLast? = some last)
    (hfits : ∀ before, R before last → R before new) : (items.dropLast ++ [new]).IsChain R := by
  rw [← List.dropLast_append_getLast? last hlast, List.isChain_append] at h
  exact isChain_concat h.1 fun before hbefore => hfits before (h.2.2 before hbefore last rfl)

theorem forall_mem_concat (h : ∀ item ∈ items, P item) (hnew : P new) :
    ∀ item ∈ items ++ [new], P item := by
  simpa [or_imp, forall_and] using ⟨h, hnew⟩

theorem forall_mem_replaceLast (h : ∀ item ∈ items, P item) (hnew : P new) :
    ∀ item ∈ items.dropLast ++ [new], P item :=
  forall_mem_concat (fun item hitem => h item ((List.dropLast_sublist items).mem hitem)) hnew

end Chains

/-! ### Literals that are tidy -/

namespace Tidy

variable {parts others : List FormatPart} {part : FormatPart}

theorem nil : Tidy [] :=
  .intro (fun _ => nofun) .nil

theorem field (h : Tidy parts) (hpart : part.Tidy) (hliteral : part.isLiteral = false) :
    Tidy (parts ++ [part]) := by
  obtain ⟨hparts, apart⟩ := h
  exact .intro (forall_mem_concat hparts hpart) (isChain_concat apart fun _ _ => by simp [hliteral])

theorem add (h : Tidy parts) (hpart : part.isLiteral = false → part.Tidy) :
    Tidy (FormatPart.add parts part) := by
  unfold FormatPart.add
  split
  case h_1 text =>
    split
    case isTrue => exact h
    case isFalse hempty =>
      have htext : text ≠ "" := fun heq => hempty (heq ▸ rfl)
      obtain ⟨hparts, apart⟩ := h
      split
      case h_1 last hlast =>
        have hjoined : last ++ text ≠ "" := by simp [htext]
        exact .intro (forall_mem_replaceLast hparts (.literal hjoined))
          (isChain_replaceLast apart hlast fun _ => id)
      case h_2 hother =>
        refine .intro (forall_mem_concat hparts (.literal htext)) (isChain_concat apart ?_)
        intro last hlast hliterals
        cases last with
        | literal before => exact hother before hlast
        | field => cases hliterals.1
  case h_2 => exact h.field (hpart rfl) rfl

theorem add_literal {text : String} (h : Tidy parts) :
    Tidy (FormatPart.add parts (.literal text)) :=
  h.add nofun

theorem foldl_add (h : Tidy parts) (hothers : ∀ other ∈ others, other.Tidy) :
    Tidy (others.foldl FormatPart.add parts) := by
  induction others generalizing parts with
  | nil => exact h
  | cons other others induction =>
    refine induction (h.add fun _ => hothers other List.mem_cons_self) fun later hlater => ?_
    exact hothers later (List.mem_cons_of_mem _ hlater)

end Tidy

/-! ### Arguments that are well shaped -/

namespace Language

variable {argv parts : List CommandArg} {left right piece : CommandArg} {touches : Bool}

theorem eq_word {arg : CommandArg} (h : arg.isWord = true) : ∃ text, arg = .word text := by
  cases arg with
  | word text => exact ⟨text, rfl⟩
  | _ => cases h

theorem joinPieces_shaped (h : (CommandArg.concat parts).WellShaped) (hright : right.WellShaped)
    (hpiece : right.isPiece = true) : (CommandArg.concat (joinPieces parts right)).WellShaped := by
  cases h with
  | concat hlength hpieces hparts apart =>
    unfold joinPieces
    split
    case h_1 last text hlast =>
      refine .concat ?_ (forall_mem_replaceLast hpieces rfl) (forall_mem_replaceLast hparts .word)
        (isChain_replaceLast apart hlast fun _ => id)
      simp only [List.length_append, List.length_dropLast, List.length_singleton]
      omega
    case h_2 hother =>
      refine .concat ?_ (forall_mem_concat hpieces hpiece) (forall_mem_concat hparts hright)
        (isChain_concat apart ?_)
      · simp only [List.length_append, List.length_singleton]
        omega
      · intro last hlast hwords
        obtain ⟨before, rfl⟩ := eq_word hwords.1
        obtain ⟨text, heq⟩ := eq_word hwords.2
        exact hother before text hlast heq

theorem fuse_shaped (hleft : left.WellShaped) (hright : right.WellShaped)
    (hseparate : isSeparate left = false) (hpiece : right.isPiece = true) :
    (fuse left right).WellShaped := by
  unfold fuse
  split
  case h_1 => exact .word
  case h_2 => exact joinPieces_shaped hleft hright hpiece
  case h_3 hconcat hwords =>
    have hsingle : left.isPiece = true := by
      cases left with
      | concat parts => exact absurd rfl (hconcat parts)
      | redirect | raw => cases hseparate
      | _ => rfl
    refine .concat (Nat.le_refl 2) ?_ ?_ ?_
    · simp [hsingle, hpiece]
    · simp [hleft, hright]
    · refine List.isChain_pair.mpr fun hboth => ?_
      obtain ⟨a, ha⟩ := eq_word hboth.1
      obtain ⟨b, hb⟩ := eq_word hboth.2
      exact hwords a b ha hb

theorem addPiece_shaped (hargv : ∀ arg ∈ argv, arg.WellShaped) (hshaped : piece.WellShaped)
    (hconcat : piece.isConcat = false) : ∀ arg ∈ addPiece argv piece touches, arg.WellShaped := by
  unfold addPiece
  split
  case h_1 last hlast =>
    split
    case isTrue hfused =>
      simp only [Bool.and_eq_true, Bool.not_eq_true'] at hfused
      obtain ⟨⟨_, hpiece⟩, hseparate⟩ := hfused
      have hsingle : piece.isPiece = true := by
        cases piece with
        | concat parts => cases hconcat
        | redirect | raw => cases hpiece
        | _ => rfl
      have hleft := hargv last (List.mem_of_getLast? hlast)
      exact forall_mem_replaceLast hargv (fuse_shaped hleft hshaped hseparate hsingle)
    case isFalse => exact forall_mem_concat hargv hshaped
  case h_2 => simpa using hshaped

end Language

end ShellSyntax
