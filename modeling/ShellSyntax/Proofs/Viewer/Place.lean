import ShellSyntax.Viewer.Replay

/-!
The place of the viewer. Whatever keys are pressed, however long the playback runs and whatever the
panes measure, the replay stands at a recorded event, nothing is looked up outside its bounds, and
every pane that is drawn shows what the event is about.
-/

namespace ShellSyntax

namespace Viewer

/-! ### Windows -/

/-- Of `total` rows the `visible` ones from `offset` on are shown. `row` is one of them, and below
the last row no room is left that rows above could fill. -/
structure InView (row offset visible total : Nat) : Prop where
  first_le : offset ≤ row
  lt_last : row < offset + visible
  full : offset ≤ total - visible

theorem visibleRows_pos (height : Nat) : 0 < visibleRows height := by
  unfold visibleRows
  omega

theorem inView_scrollTo {selected offset visible total : Nat} (hselected : selected < total)
    (hvisible : 0 < visible) :
    InView selected (scrollTo selected offset visible total) visible total := by
  have hmoved : (if selected < offset then selected
      else if offset + visible ≤ selected then selected + 1 - visible else offset) ≤ selected ∧
      selected < (if selected < offset then selected
        else if offset + visible ≤ selected then selected + 1 - visible else offset) + visible := by
    split
    case isTrue => omega
    case isFalse =>
      split
      case isTrue => omega
      case isFalse => omega
  refine ⟨?_, ?_, Nat.min_le_right _ _⟩
  · exact Nat.le_trans (Nat.min_le_left _ _) hmoved.1
  · rw [scrollTo]
    omega

/-- The source pane shows the current line if the text has it, at whatever row it is held. -/
theorem SourceScroll.inView_scrollTo {scroll : SourceScroll} {line total visible : Nat}
    (hline : 0 < line) (htotal : line ≤ total) (hvisible : 0 < visible) :
    InView (line - 1) (scroll.scrollTo line total visible).offset visible total := by
  have hrow : min (scroll.targetRow.getD (visible / 2)) (visible - 1) < visible := by omega
  rw [scrollTo]
  simp only [hline, htotal, and_self, if_true]
  split
  case isTrue hmore => exact ⟨by omega, by omega, Nat.min_le_right _ _⟩
  case isFalse hfits => exact ⟨Nat.zero_le _, by omega, Nat.zero_le _⟩

/-! ### Columns -/

theorem extentOnLine_bounds {token : Token} {number width start stop : Nat}
    (hextent : extentOnLine token number width = some (start, stop)) :
    start < stop ∧ stop ≤ width := by
  rw [extentOnLine] at hextent
  split at hextent
  case isTrue => cases hextent
  case isFalse =>
    obtain ⟨hless, hcolumns⟩ := Option.ite_none_right_eq_some.mp hextent
    cases hcolumns
    exact ⟨hless, Nat.min_le_right _ _⟩

theorem errorColumns_bounds {error : SyntaxError} {number width start stop : Nat}
    (hcolumns : errorColumns error number width = some (start, stop)) :
    start ≤ stop ∧ stop ≤ width := by
  simp only [errorColumns] at hcolumns
  split at hcolumns
  case isTrue =>
    cases hcolumns
    refine ⟨?_, Nat.min_le_right _ _⟩
    split
    case isTrue hrange => omega
    case isFalse => omega
  case isFalse => cases hcolumns

namespace Replay

/-! ### Renders and acts -/

/-- The room that each pane has. -/
structure Screen where
  source : Frame
  tokens : Frame
  trace : Frame
deriving DecidableEq, Repr

/-- Scrolls every pane, whatever it measures. -/
def render (r : Replay) (screen : Screen) : Replay :=
  { r with
    sourceScroll := SourcePane.scrolled screen.source r.sourceView r.sourceScroll
    tokensScroll := TokensPane.scrolled screen.tokens r.tokens r.mark? r.tokensScroll
    traceScroll := TracePane.scrolled screen.trace r.log r.position r.traceScroll }

theorem scrolled_eq_render (r : Replay) (width height : Nat) :
    r.scrolled width height =
      r.render ⟨r.sourceFrame width height, r.tokensFrame width height,
        r.traceFrame width height⟩ :=
  rfl

/-- What can happen while the viewer runs. -/
inductive Act where
  | press (key : Key)
  | play
  | render (screen : Screen)
deriving DecidableEq, Repr

def act (r : Replay) : Act → Replay
  | .press key => r.press key
  | .play => r.playStep
  | .render screen => r.render screen

def after (r : Replay) (acts : List Act) : Replay :=
  acts.foldl act r

/-! ### What acts keep -/

/-- The replay stands at a recorded event, or at the start of an empty record. -/
def Stands (r : Replay) : Prop :=
  r.position ≤ r.log.events.size - 1

/-- The record stays, and the replay stays in it. -/
structure Keeps (r r' : Replay) : Prop where
  log : r'.log = r.log
  stands : r.Stands → r'.Stands

variable {r r' r'' : Replay} {target mark index : Nat}

theorem Keeps.refl (r : Replay) : Keeps r r :=
  ⟨rfl, id⟩

theorem Keeps.trans (first : Keeps r r') (second : Keeps r' r'') : Keeps r r'' :=
  ⟨second.log.trans first.log, fun hstands => second.stands (first.stands hstands)⟩

theorem keeps_of_eq (hlog : r'.log = r.log) (hposition : r'.position = r.position) :
    Keeps r r' :=
  ⟨hlog, fun hstands => by rwa [Stands, hlog, hposition]⟩

theorem keeps_paused (r : Replay) : Keeps r r.paused :=
  keeps_of_eq rfl rfl

theorem keeps_forward (r : Replay) : Keeps r r.forward.2 := by
  unfold forward
  split
  case isTrue hmore =>
    exact ⟨rfl, fun _ => show r.position + 1 ≤ r.log.events.size - 1 by omega⟩
  case isFalse => exact keeps_of_eq rfl rfl

theorem keeps_backward (r : Replay) : Keeps r r.backward.2 := by
  unfold backward
  split
  case isTrue => exact ⟨rfl, fun hstands => Nat.le_trans (Nat.sub_le _ 1) hstands⟩
  case isFalse => exact keeps_of_eq rfl rfl

theorem keeps_forwardBy (count : Nat) (r : Replay) : Keeps r (r.forwardBy count).2 := by
  induction count generalizing r with
  | zero => exact .refl r
  | succ count induction =>
    have step := keeps_forward r
    rw [forwardBy]
    generalize r.forward = moved at step
    obtain ⟨_ | _, next⟩ := moved
    · exact step
    · exact step.trans (induction next)

theorem keeps_announcePlace (r : Replay) : Keeps r r.announcePlace :=
  keeps_of_eq rfl rfl

theorem keeps_described {moved : Bool × Replay} (hmoved : Keeps r moved.2) :
    Keeps r (described moved) := by
  unfold described
  split
  case isTrue => exact hmoved.trans (keeps_announcePlace _)
  case isFalse => exact hmoved

theorem keeps_jump {goal : Option Nat}
    (hgoal : ∀ target, goal = some target → target < r.log.events.size) :
    Keeps r (r.jump goal) := by
  cases goal with
  | none => exact .refl r
  | some target =>
    have htarget := hgoal target rfl
    have moved : Keeps r { r with position := target } :=
      ⟨rfl, fun _ => show target ≤ r.log.events.size - 1 by omega⟩
    exact moved.trans (keeps_announcePlace _)

/-! ### Searches -/

theorem matchingExit?_bounds (hexit : r.matchingExit? index = some target) :
    index + 1 ≤ target ∧ target < r.log.events.size := by
  unfold matchingExit? at hexit
  split at hexit
  case h_1 =>
    obtain ⟨offset, hoffset, rfl⟩ := Option.map_eq_some_iff.mp hexit
    obtain ⟨hlt, _⟩ := List.findIdx?_eq_some_iff_getElem.mp hoffset
    rw [List.length_drop, Array.length_toList] at hlt
    omega
  case h_2 => cases hexit

theorem laterToken?_bounds (hlater : r.laterToken? mark = some target) :
    r.position ≤ target ∧ target < r.log.events.size := by
  obtain ⟨offset, hoffset, rfl⟩ := Option.map_eq_some_iff.mp hlater
  obtain ⟨hlt, _⟩ := List.findIdx?_eq_some_iff_getElem.mp hoffset
  rw [List.length_drop, Array.length_toList] at hlt
  omega

theorem earlierToken?_bounds (hearlier : r.earlierToken? mark = some target) :
    target < r.position ∧ target < r.log.events.size := by
  obtain ⟨offset, hoffset, rfl⟩ := Option.map_eq_some_iff.mp hearlier
  obtain ⟨hlt, _⟩ := List.findIdx?_eq_some_iff_getElem.mp hoffset
  rw [List.length_reverse, List.length_take, Array.length_toList] at hlt ⊢
  omega

/-! ### Keys -/

theorem keeps_pressUp (r : Replay) : Keeps r r.pressUp := by
  unfold pressUp
  split
  case h_1 => exact keeps_of_eq rfl rfl
  case h_2 => exact keeps_backward r
  case h_3 =>
    refine keeps_jump fun target htarget => ?_
    obtain ⟨mark, _, hearlier⟩ := Option.bind_eq_some_iff.mp htarget
    exact (earlierToken?_bounds hearlier).2

theorem keeps_pressDown (r : Replay) : Keeps r r.pressDown := by
  unfold pressDown
  split
  case h_1 => exact keeps_of_eq rfl rfl
  case h_2 => exact keeps_forward r
  case h_3 =>
    refine keeps_jump fun target htarget => ?_
    obtain ⟨mark, _, hlater⟩ := Option.bind_eq_some_iff.mp htarget
    exact (laterToken?_bounds hlater).2

theorem keeps_pressChar (r : Replay) (c : Char) : Keeps r (r.pressChar c) := by
  unfold pressChar
  split
  case isTrue => exact keeps_of_eq rfl rfl
  case isFalse =>
    split
    case isTrue =>
      exact ((keeps_paused r).trans (keeps_forwardBy _ _)).trans (keeps_of_eq rfl rfl)
    case isFalse =>
      split
      case isTrue =>
        split
        case h_1 index hexit =>
          refine (keeps_paused r).trans (keeps_jump fun target htarget => ?_)
          cases htarget
          exact (matchingExit?_bounds hexit).2
        case h_2 => exact keeps_of_eq rfl rfl
      case isFalse =>
        split
        case isTrue => exact keeps_of_eq rfl rfl
        case isFalse => exact .refl r

theorem keeps_press (r : Replay) (key : Key) : Keeps r (r.press key) := by
  cases key with
  | char c => exact keeps_pressChar r c
  | tab => exact keeps_of_eq rfl rfl
  | backTab => exact keeps_of_eq rfl rfl
  | left => exact keeps_described ((keeps_paused r).trans (keeps_backward _))
  | right => exact keeps_described ((keeps_paused r).trans (keeps_forward _))
  | up => exact keeps_pressUp r
  | down => exact keeps_pressDown r
  | enter => exact ⟨rfl, fun _ => Nat.le_refl _⟩
  | backspace => exact ⟨rfl, fun _ => Nat.zero_le _⟩
  | home => exact .refl r

theorem keeps_playStep (r : Replay) : Keeps r r.playStep := by
  have step := keeps_forward r
  unfold playStep
  split
  case isTrue =>
    generalize r.forward = moved at step
    obtain ⟨_ | _, next⟩ := moved
    · exact step.trans (keeps_of_eq rfl rfl)
    · exact step
  case isFalse => exact .refl r

theorem keeps_act (r : Replay) (a : Act) : Keeps r (r.act a) := by
  cases a with
  | press key => exact keeps_press r key
  | play => exact keeps_playStep r
  | render screen => exact keeps_of_eq rfl rfl

theorem keeps_after (r : Replay) (acts : List Act) : Keeps r (r.after acts) := by
  induction acts generalizing r with
  | nil => exact .refl r
  | cons a acts induction => exact (keeps_act r a).trans (induction (r.act a))

/-! ### Bounds and views -/

/-- The replay stands in its record, the events that are searched lie in it, what is found there
does too, and lines are painted only where they have characters. -/
structure InBounds (r : Replay) : Prop where
  position : 0 < r.log.events.size → r.position < r.log.events.size
  position_empty : r.log.events.size = 0 → r.position = 0
  behind : ∀ index event, r.log.events[index]? = some event → index + 1 ≤ r.log.events.size
  exit : ∀ index target, r.matchingExit? index = some target →
    index + 1 ≤ target ∧ target < r.log.events.size
  later : ∀ mark target, r.laterToken? mark = some target →
    r.position ≤ target ∧ target < r.log.events.size
  earlier : ∀ mark target, r.earlierToken? mark = some target →
    target < r.position ∧ target < r.log.events.size
  token : ∀ token number width start stop,
    extentOnLine token number width = some (start, stop) → start < stop ∧ stop ≤ width
  error : ∀ error number width start stop,
    errorColumns error number width = some (start, stop) → start ≤ stop ∧ stop ≤ width

theorem Stands.inBounds (stands : r.Stands) : r.InBounds where
  position hsize := by
    unfold Stands at stands
    omega
  position_empty hsize := by
    unfold Stands at stands
    omega
  behind _ _ hevent := (Array.getElem?_eq_some_iff.mp hevent).1
  exit _ _ := matchingExit?_bounds
  later _ _ := laterToken?_bounds
  earlier _ _ := earlierToken?_bounds
  token _ _ _ _ _ := extentOnLine_bounds
  error _ _ _ _ _ := errorColumns_bounds

/-- What the event is about can be seen: the event in its list, the token at its mark or else the
last token, and the line of the token or else of the error. -/
structure Shows (r : Replay) (screen : Screen) : Prop where
  event : 0 < r.log.events.size →
    InView r.position r.traceScroll screen.trace.visible r.log.events.size
  token : ∀ mark, r.mark? = some mark → 0 < r.tokens.size →
    InView (min mark (r.tokens.size - 1)) r.tokensScroll screen.tokens.visible r.tokens.size
  line : 0 < r.sourceView.currentLine →
    r.sourceView.currentLine ≤ (Text.shownLines r.source).length →
    InView (r.sourceView.currentLine - 1) r.sourceScroll.offset screen.source.visible
      (Text.shownLines r.source).length

theorem shows_render (stands : r.Stands) (screen : Screen) : (r.render screen).Shows screen where
  event hsize := by
    replace hsize : 0 < r.log.events.size := hsize
    show InView r.position (TracePane.scrolled _ _ _ _) _ _
    rw [TracePane.scrolled, if_neg (by simpa using Nat.ne_of_gt hsize)]
    exact inView_scrollTo (stands.inBounds.position hsize) (visibleRows_pos _)
  token mark hmark hsize := by
    replace hmark : r.mark? = some mark := hmark
    replace hsize : 0 < r.tokens.size := hsize
    show InView (min mark (r.tokens.size - 1)) (TokensPane.scrolled _ _ r.mark? _) _ _
    rw [hmark, TokensPane.scrolled, if_neg (by simpa using Nat.ne_of_gt hsize)]
    exact inView_scrollTo (by omega) (visibleRows_pos _)
  line hline htotal := SourceScroll.inView_scrollTo hline htotal (visibleRows_pos _)

/-- The viewer never loses its place: whatever has been done to it, it stands in its record, looks
nothing up outside its bounds, and the next render shows what its event is about. -/
theorem viewer_keeps_place (source : String) (tokens : Array Token) (log : TraceLog)
    (error : Option SyntaxError) (acts : List Act) :
    ((start source tokens log error).after acts).InBounds ∧
      ∀ screen, (((start source tokens log error).after acts).render screen).Shows screen := by
  have stands : ((start source tokens log error).after acts).Stands :=
    (keeps_after _ acts).stands (Nat.zero_le _)
  exact ⟨stands.inBounds, shows_render stands⟩

end Replay

end Viewer

end ShellSyntax
