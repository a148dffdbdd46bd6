import ShellSyntax.Proofs.Parser.Leads
import ShellSyntax.Proofs.Tree.Nodes

/-!
Where the nodes of a tree stand among the tokens. A node spans the tokens from one to another, and
the nodes below it span tokens between these two. Matchers that yield such nodes are put together
to matchers that yield such nodes.
-/

namespace ShellSyntax

variable {α : Type} {f : Feed} {i j k l : Nat}

namespace Feed

/-- No token is missing. -/
def Whole (f : Feed) : Prop :=
  ∀ i, ∃ t, f.token i = .ok t

/-- There is a token between `i` and `j` that is no layout. -/
def Shows (f : Feed) (i j : Nat) : Prop :=
  ∃ k t, i ≤ k ∧ k < j ∧ f.token k = .ok t ∧ t.kind.isLayout = false

theorem Shows.mono (h : f.Shows i j) (hi : k ≤ i) (hj : j ≤ l) : f.Shows k l := by
  obtain ⟨m, t, him, hmj, htoken, hlayout⟩ := h
  exact ⟨m, t, Nat.le_trans hi him, Nat.lt_of_lt_of_le hmj hj, htoken, hlayout⟩

theorem Shows.le (h : f.Shows i j) : i ≤ j := by
  obtain ⟨k, _, hik, hkj, _⟩ := h
  exact Nat.le_of_lt (Nat.lt_of_le_of_lt hik hkj)

theorem shows_token {t : Token} (ht : f.token i = .ok t) (hlayout : t.kind.isLayout = false) :
    f.Shows i (i + 1) :=
  ⟨i, t, Nat.le_refl i, Nat.lt_succ_self i, ht, hlayout⟩

theorem Shows.last (hwhole : f.Whole) (h : f.Shows i j) :
    ∃ b t, i ≤ b ∧ b < j ∧ f.token b = .ok t ∧ t.kind.isLayout = false ∧
      f.lastToken? j = some t ∧
      ∀ m u, b < m → m < j → f.token m = .ok u → u.kind.isLayout = true := by
  induction j with
  | zero =>
    obtain ⟨k, _, _, hk, _⟩ := h
    exact absurd hk (Nat.not_lt_zero k)
  | succ j induction =>
    obtain ⟨t, ht⟩ := hwhole j
    cases hlayout : t.kind.isLayout with
    | false =>
      obtain ⟨k, _, hik, hk, _⟩ := h
      refine ⟨j, t, by omega, Nat.lt_succ_self j, ht, hlayout, ?_, by omega⟩
      simp [lastToken?, ht, hlayout]
    | true =>
      have hbefore : f.Shows i j := by
        obtain ⟨k, u, hik, hk, hu, hshown⟩ := h
        refine ⟨k, u, hik, ?_, hu, hshown⟩
        refine Nat.lt_of_le_of_ne (Nat.le_of_lt_succ hk) ?_
        rintro rfl
        cases ht.symm.trans hu
        rw [hlayout] at hshown
        cases hshown
      obtain ⟨b, u, hib, hb, hu, hshown, hlast, hrest⟩ := induction hbefore
      refine ⟨b, u, hib, Nat.lt_succ_of_lt hb, hu, hshown, ?_, ?_⟩
      · simp [lastToken?, ht, hlayout, hlast]
      · intro m v hbm hm hv
        rcases Nat.lt_succ_iff_lt_or_eq.mp hm with hlt | rfl
        · exact hrest m v hbm hlt hv
        · cases ht.symm.trans hv
          exact hlayout

end Feed

/-- The node spans tokens between `i` and `j`, the last of which is no layout, and the nodes below
it span tokens between its first and its last. -/
inductive Node.Between (f : Feed) : Nat → Nat → Node → Prop
  | intro {i j a b : Nat} {n : Node} {first last : Token} (hstart : i ≤ a) (hle : a ≤ b)
      (hstop : b < j) (hfirst : f.token a = .ok first) (hlast : f.token b = .ok last)
      (hlayout : last.kind.isLayout = false)
      (hspan : n.span = ⟨first.start, last.stop.later first.start⟩)
      (hchildren : ∀ child ∈ n.children, Between f a (b + 1) child) : Between f i j n

/-- All of the nodes span tokens between `i` and `j`. -/
def AllBetween (f : Feed) (i j : Nat) (ns : List Node) : Prop :=
  ∀ n ∈ ns, n.Between f i j

namespace Node.Between

variable {n : Node}

theorem mono (h : n.Between f i j) (hi : k ≤ i) (hj : j ≤ l) : n.Between f k l := by
  cases h with
  | intro hstart hle hstop hfirst hlast hlayout hspan hchildren =>
    exact .intro (Nat.le_trans hi hstart) hle (Nat.lt_of_lt_of_le hstop hj) hfirst hlast hlayout
      hspan hchildren

theorem shows (h : n.Between f i j) : f.Shows i j := by
  cases h with
  | intro hstart hle hstop _ hlast hlayout =>
    exact ⟨_, _, Nat.le_trans hstart hle, hstop, hlast, hlayout⟩

theorem children (h : n.Between f i j) : AllBetween f i j n.children := by
  cases h with
  | intro hstart hle hstop _ _ _ _ hchildren =>
    exact fun child hchild => (hchildren child hchild).mono hstart hstop

end Node.Between

namespace AllBetween

variable {ns ms : List Node} {n : Node}

@[simp] theorem nil : AllBetween f i j [] :=
  fun _ => nofun

@[simp] theorem append_iff :
    AllBetween f i j (ns ++ ms) ↔ AllBetween f i j ns ∧ AllBetween f i j ms :=
  List.forall_mem_append

theorem append (hns : AllBetween f i j ns) (hms : AllBetween f i j ms) :
    AllBetween f i j (ns ++ ms) :=
  append_iff.mpr ⟨hns, hms⟩

theorem mono (h : AllBetween f i j ns) (hi : k ≤ i) (hj : j ≤ l) : AllBetween f k l ns :=
  fun n hn => (h n hn).mono hi hj

theorem either {ls : List Node} (hns : AllBetween f i j ns) (hms : AllBetween f i j ms)
    (h : ∀ n ∈ ls, n ∈ ns ∨ n ∈ ms) : AllBetween f i j ls :=
  fun n hn => (h n hn).elim (hns n) (hms n)

theorem head {e : Expr} (h : AllBetween f i j (nodes e)) : (Node.expr e).Between f i j :=
  h _ (List.mem_singleton_self _)

theorem shows {e : Expr} (h : AllBetween f i j (nodes e)) : f.Shows i j :=
  h.head.shows

theorem single (h : n.Between f i j) : AllBetween f i j [n] := by
  intro m hm
  rwa [List.mem_singleton.mp hm]

theorem concat [HasNodes α] {items : List α} {a : α} (hitems : AllBetween f i j (nodes items))
    (ha : AllBetween f k l (nodes a)) (hi : i ≤ k) (hj : j ≤ l) :
    AllBetween f i l (nodes (items ++ [a])) := by
  rw [nodes_append, nodes_cons, nodes_nil, List.append_nil]
  exact (hitems.mono (Nat.le_refl i) hj).append (ha.mono hi (Nat.le_refl l))

end AllBetween

theorem Node.Between.spanned {n : Node} (hwhole : f.Whole) (hshows : f.Shows i j)
    (hspan : n.span = f.spanSince i j) (h : AllBetween f i j n.children) : n.Between f i j := by
  obtain ⟨b, last, hib, hbj, hlast, hlayout, hsame, hrest⟩ := hshows.last hwhole
  obtain ⟨first, hfirst⟩ := hwhole i
  refine .intro (Nat.le_refl i) hib hbj hfirst hlast hlayout ?_ ?_
  · simp [hspan, Feed.spanSince, Feed.startOf, hfirst, hsame]
  · intro child hchild
    -- a child ends with a token that is no layout, so with the last such token or before
    cases h child hchild with
    | @intro _ _ a c _ first' last' hstart hle hstop hfirst' hlast' hlayout' hspan' hbelow =>
      have hc : c ≤ b := by
        refine Nat.le_of_not_lt fun hlater => ?_
        rw [hrest c last' hlater hstop hlast'] at hlayout'
        cases hlayout'
      exact .intro hstart hle (Nat.lt_succ_of_le hc) hfirst' hlast' hlayout' hspan' hbelow

/-- A matcher that started at `k` and ends at `j` yields a value whose nodes span tokens between. -/
def Lays (f : Feed) [HasNodes α] (k : Nat) (v : α) (j : Nat) : Prop :=
  k ≤ j ∧ AllBetween f k j (nodes v)

namespace Lays

variable [HasNodes α]

theorem none (h : k ≤ j) : Lays f k (none : Option α) j :=
  ⟨h, .nil⟩

theorem some {a : α} (h : k ≤ j) (ha : AllBetween f k j (nodes a)) : Lays f k (some a) j :=
  ⟨h, by rwa [nodes_some]⟩

theorem of_some {a : α} (h : Lays f k (Option.some a) j) : AllBetween f k j (nodes a) := by
  have hnodes := h.2
  rwa [nodes_some] at hnodes

theorem after {v : α} (h : Lays f i v j) (hle : k ≤ i) : Lays f k v j :=
  ⟨Nat.le_trans hle h.1, h.2.mono hle (Nat.le_refl j)⟩

end Lays

namespace LeadsIn

variable {R : RuleSet} {W : World} {post : Matches R} {α β : Type} {Q : β → Nat → Prop}

/-! ### Tokens -/

theorem shows_spelled {t : Token} (ht : W.token i = .ok t)
    (hkind : t.kind = .op ∨ t.kind = .name ∨ t.kind = .word) : W.Shows i (i + 1) := by
  refine Feed.shows_token ht ?_
  rcases hkind with hkind | hkind | hkind <;> rw [hkind] <;> rfl

theorem accepts {text : String} {f : Bool → Matcher R β}
    (hyes : W.Shows i (i + 1) → Leads W post (f true) (i + 1) Q)
    (hno : Leads W post (f false) i Q) : Leads W post (Matcher.accepts text >>= f) i Q :=
  .bind (.spelled (fun _ ht hkind => hyes (shows_spelled ht hkind)) hno)

theorem acceptsKnown {t : Token} {text : String} {f : Bool → Matcher R β}
    (ht : W.token i = .ok t) (hkind : t.kind = .name) (htext : t.text = text)
    (h : W.Shows i (i + 1) → Leads W post (f true) (i + 1) Q) :
    Leads W post (Matcher.accepts text >>= f) i Q := by
  refine .bind (.bind (.peek fun t' ht' => ?_))
  cases ht.symm.trans ht'
  rw [if_pos (by simp [hkind, htext])]
  exact .next fun _ _ => h (shows_spelled ht (.inr (.inl hkind)))

theorem ifAccepts {text : String} {yes no : Matcher R β}
    (hyes : W.Shows i (i + 1) → Leads W post yes (i + 1) Q) (hno : Leads W post no i Q) :
    Leads W post (Matcher.accepts text >>= fun found => if found = true then yes else no) i Q :=
  .accepts hyes hno

theorem unlessAccepts {text : String} {no yes : Matcher R β} (hno : Leads W post no i Q)
    (hyes : W.Shows i (i + 1) → Leads W post yes (i + 1) Q) :
    Leads W post (Matcher.accepts text >>= fun found => if (!found) = true then no else yes) i Q :=
  .accepts hyes hno

theorem spelledOrNot {text : String} {f : Option Token → Matcher R β}
    (h : ∀ found j, i ≤ j → Leads W post (f found) j Q) :
    Leads W post (Matcher.spelled text >>= f) i Q :=
  .spelled (fun _ _ _ => h _ (i + 1) (Nat.le_succ i)) (h none i (Nat.le_refl i))

theorem acceptsOrNot {text : String} {f : Bool → Matcher R β}
    (h : ∀ found j, i ≤ j → Leads W post (f found) j Q) :
    Leads W post (Matcher.accepts text >>= f) i Q :=
  .bind (.spelledOrNot fun found j hj => h found.isSome j hj)

section Needed

variable [HasNodes β]

theorem expect {text : String} {rest : Matcher R (Option β)} (hle : k ≤ i)
    (h : W.Shows i (i + 1) → Leads W post rest (i + 1) (Lays W.toFeed k)) :
    Leads W post
      (Matcher.accepts text >>= fun found => if (!found) = true then pure none else rest)
      i (Lays W.toFeed k) :=
  .accepts h (Lays.none hle)

theorem expectKind {kind : TokenKind} {rest : Matcher R (Option β)} (hle : k ≤ i)
    (h : Leads W post rest (i + 1) (Lays W.toFeed k)) :
    Leads W post
      (Matcher.acceptsKind kind >>= fun found => if (!found) = true then pure none else rest)
      i (Lays W.toFeed k) :=
  .acceptsKind (fun _ _ _ => h) (Lays.none hle)

end Needed

/-! ### Values -/

variable [HasNodes α]

theorem value {m : Matcher R α} {f : α → Matcher R β} (hm : Leads W post m i (Lays W.toFeed i))
    (h : ∀ v j, i ≤ j → AllBetween W.toFeed i j (nodes v) → Leads W post (f v) j Q) :
    Leads W post (m >>= f) i Q :=
  .bind (hm.mono fun v j hlays => h v j hlays.1 hlays.2)

theorem andThen {m : Matcher R (Option α)} {f : Option α → Matcher R β}
    (hm : Leads W post m i (Lays W.toFeed i))
    (hsome : ∀ a j, i ≤ j → AllBetween W.toFeed i j (nodes a) → Leads W post (f (some a)) j Q)
    (hnone : ∀ j, i ≤ j → Leads W post (f none) j Q) : Leads W post (m >>= f) i Q := by
  refine .bind (hm.mono ?_)
  rintro (_ | a) j hlays
  · exact hnone j hlays.1
  · exact hsome a j hlays.1 (Lays.of_some hlays)

theorem need [HasNodes β] {m : Matcher R (Option α)} {f : Option α → Matcher R (Option β)}
    (hm : Leads W post m i (Lays W.toFeed i)) (hle : k ≤ i) (hnone : f none = .done none)
    (hsome : ∀ a j, i ≤ j → AllBetween W.toFeed i j (nodes a) →
      Leads W post (f (some a)) j (Lays W.toFeed k)) :
    Leads W post (m >>= f) i (Lays W.toFeed k) :=
  hm.andThen hsome fun j hj => by
    rw [hnone]
    exact Lays.none (Nat.le_trans hle hj)

theorem after {m : Matcher R α} (hm : Leads W post m i (Lays W.toFeed i)) (hle : k ≤ i) :
    Leads W post m i (Lays W.toFeed k) :=
  hm.mono fun _ _ hlays => hlays.after hle

/-! ### Combinations -/

theorem many {m : Matcher R (Option α)}
    (hm : ∀ j, i ≤ j → Leads W post m j (Lays W.toFeed j)) :
    Leads W post (Matcher.many m) i (Lays W.toFeed i) := by
  refine .loop (Lays W.toFeed i) ⟨Nat.le_refl i, .nil⟩ ?_
  rintro items j ⟨hj, hitems⟩
  refine .mark ((hm j hj).andThen ?_ fun k _ => .reset ⟨hj, hitems⟩)
  intro item k hk hitem
  have hall : Lays W.toFeed i (items ++ [item]) k :=
    ⟨Nat.le_trans hj hk, hitems.concat hitem hj hk⟩
  refine .mark ?_
  split
  · exact hall
  · exact hall

theorem many1 {m : Matcher R (Option α)}
    (hm : ∀ j, i ≤ j → Leads W post m j (Lays W.toFeed j)) :
    Leads W post (Matcher.many1 m) i (Lays W.toFeed i) := by
  refine (many hm).value ?_
  rintro (_ | ⟨item, items⟩) j hj hitems
  · exact Lays.none hj
  · exact Lays.some hj hitems

theorem separated_items {separator : String} {m : Matcher R (Option α)}
    (hm : ∀ j, i ≤ j → Leads W post m j (Lays W.toFeed j)) :
    Leads W post (Matcher.separated separator m) i fun found j =>
      Lays W.toFeed i found j ∧ found ≠ Option.some [] := by
  refine (hm i (Nat.le_refl i)).andThen ?_ fun j hj => ⟨Lays.none hj, nofun⟩
  intro first j hj hfirst
  refine .loop (fun items j => Lays W.toFeed i items j ∧ items ≠ [])
    ⟨⟨hj, by simpa using hfirst⟩, nofun⟩ ?_
  rintro items j ⟨⟨hj, hitems⟩, hne⟩
  have hstop : Lays W.toFeed i (Option.some items) j ∧ Option.some items ≠ Option.some [] :=
    ⟨Lays.some hj hitems, by simpa using hne⟩
  refine .mark (.accepts (fun _ => ?_) hstop)
  refine (hm (j + 1) (by omega)).andThen ?_ fun k _ => .reset hstop
  intro item k hk hitem
  exact ⟨⟨by omega, hitems.concat hitem (by omega) (by omega)⟩, List.concat_ne_nil item items⟩

theorem separated {separator : String} {m : Matcher R (Option α)}
    (hm : ∀ j, i ≤ j → Leads W post m j (Lays W.toFeed j)) :
    Leads W post (Matcher.separated separator m) i (Lays W.toFeed i) :=
  (separated_items hm).mono fun _ _ h => h.1

theorem firstOf {alternatives : List (Matcher R (Matcher.Attempt α))}
    (h : ∀ m ∈ alternatives, Leads W post m i fun found j =>
      ∀ a, found = .matched a → Lays W.toFeed i (some a) j) :
    Leads W post (Matcher.firstOf alternatives) i (Lays W.toFeed i) := by
  induction alternatives with
  | nil => exact Lays.none (Nat.le_refl i)
  | cons m others induction =>
    refine .mark (.bind ((h m List.mem_cons_self).mono ?_))
    rintro (a | _ | _) j hmatched
    · exact hmatched a rfl
    · exact .reset (induction fun m hm => h m (List.mem_cons_of_mem _ hm))
    · exact .reset (Lays.none (Nat.le_refl i))

end LeadsIn

end ShellSyntax
