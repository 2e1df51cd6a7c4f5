import CanonicalAbi.Tool.Browser

/-!
# The browser stays consistent

Whatever happens to a browser, it has a function selected if there is one, and its viewport holds
what the selection asks for. One lemma for what brings a listing into the viewport, and one for what
leaves it alone, cover every message.
-/

namespace CanonicalAbi.Tool

open List

namespace Viewport

variable (v : Viewport)

def content (text : String) : List String := linesOf (plainLineEnds text.toList)

theorem lines_goto (n : Nat) : (v.goto n).lines = v.lines := rfl

theorem lines_setContent (text : String) : (v.setContent text).lines = content text := by
  rw [setContent]
  split <;> rfl

theorem lines_scrollDown (n : Nat) : (v.scrollDown n).lines = v.lines := by
  rw [scrollDown]
  split <;> rfl

theorem lines_scrollUp (n : Nat) : (v.scrollUp n).lines = v.lines := by
  rw [scrollUp]
  split <;> rfl

end Viewport

/-- What can happen to a browser. What it does not know is left to the viewport, which may move but
keeps its text. -/
inductive Message where
  | key (k : Key)
  | text (cs : List Char)
  | prompt (text : String)
  | window (width height : Int)
  | other (move : Viewport → Viewport) (keeps : ∀ v, (move v).lines = v.lines)

namespace Browser

variable {b : Browser}

def update (b : Browser) : Message → Browser
  | .key k => (b.press k).1
  | .text cs => if b.typing then { b with prompt := b.prompt.type cs } else b
  | .prompt text => b.setPrompt text
  | .window width height => b.resize width height
  | .other move _ => b.scroll move

/-- The text that the viewport should hold. Of the selected function this is the listing of its
post-return, or else of the current direction and mode, or the message why there is none, which a
style without colours leaves as it is. Without functions it is empty. -/
def rendering (b : Browser) : String :=
  match b.functions[b.selected]? with
  | none => ""
  | some l =>
    let outcome := if b.postReturn then (renderPostReturn b.realloc isRaw? l.subject).1
      else (render { dir := b.dir, mode := b.mode, realloc := b.realloc } isRaw? l.subject).1
    match outcome with
    | .ok text => text
    | .error f => f.message

/-- A selection, and no failure that would be shown while the prompt is closed. -/
structure Settled (b : Browser) : Prop where
  empty : b.functions = [] → b.typing = true ∧ b.selected = 0
  selected : b.functions ≠ [] → b.selected < b.functions.length
  failure : b.typing = false → b.failure = none

/-- A settled browser, whose viewport shows what it renders. -/
structure Consistent (b : Browser) : Prop extends Settled b where
  content : b.viewport.lines = Viewport.content b.rendering

/-- Refreshing brings into the viewport what belongs there, and changes nothing else. -/
theorem exists_refresh_eq (b : Browser) : ∃ v : Viewport, b.refresh = { b with viewport := v }
    ∧ v.lines = Viewport.content b.rendering := by
  rw [refresh, rendering, current?]
  cases b.functions[b.selected]? with
  | none => exact ⟨_, rfl, Viewport.lines_setContent _ _⟩
  | some l =>
    refine ⟨_, rfl, (Viewport.lines_goto _ _).trans ((Viewport.lines_setContent _ _).trans ?_)⟩
    rw [listing]
    cases b.postReturn <;> rfl

theorem Settled.refresh (h : b.Settled) : b.refresh.Consistent := by
  obtain ⟨v, eq, lines⟩ := exists_refresh_eq b
  rw [eq]
  exact ⟨⟨h.empty, h.selected, h.failure⟩, lines⟩

theorem functions_refresh (b : Browser) : b.refresh.functions = b.functions := by
  obtain ⟨v, eq, _⟩ := exists_refresh_eq b
  rw [eq]

/-- What a message may leave behind: a consistent browser with no function lost. -/
structure Follows (b b' : Browser) : Prop where
  consistent : b'.Consistent
  functions : b.functions <+: b'.functions

theorem Consistent.unchanged (h : b.Consistent) : b.Follows b := ⟨h, prefix_rfl⟩

theorem Consistent.prompt (h : b.Consistent) (p : Prompt) : b.Follows { b with prompt := p } :=
  ⟨⟨⟨h.empty, h.selected, h.failure⟩, h.content⟩, prefix_rfl⟩

theorem Consistent.scroll (h : b.Consistent) {move : Viewport → Viewport}
    (keeps : ∀ v, (move v).lines = v.lines) : b.Follows (b.scroll move) :=
  ⟨⟨⟨h.empty, h.selected, h.failure⟩, (keeps _).trans h.content⟩, prefix_rfl⟩

/-- A change of what is shown is followed by a refresh. -/
theorem Settled.follows {b' : Browser} (h : b'.Settled) (functions : b.functions <+: b'.functions) :
    b.Follows b'.refresh :=
  ⟨h.refresh, functions_refresh b' ▸ functions⟩

section Keys

variable (h : b.Consistent)
include h

theorem Consistent.selectPrevious : b.Follows b.selectPrevious := by
  rw [Browser.selectPrevious]
  split
  · exact h.unchanged
  · refine Settled.follows ⟨fun none => ?_, fun some => ?_, h.failure⟩ prefix_rfl
    · have first := (h.empty none).2
      contradiction
    · exact Nat.lt_of_le_of_lt (Nat.sub_le _ _) (h.selected some)

theorem Consistent.selectNext : b.Follows b.selectNext := by
  rw [Browser.selectNext]
  split
  · next inside =>
    refine Settled.follows ⟨fun none => ?_, fun _ => inside, h.failure⟩ prefix_rfl
    have none : b.functions = [] := none
    simp [none] at inside
  · exact h.unchanged

theorem Consistent.openPrompt : b.Follows b.openPrompt :=
  ⟨⟨⟨fun none => ⟨rfl, (h.empty none).2⟩, h.selected, nofun⟩, h.content⟩, prefix_rfl⟩

/-- A key in a closed prompt selects, changes what is shown, opens the prompt or scrolls. -/
theorem Consistent.browse (k : Key) : b.Follows (b.browse k).1 := by
  have page : b.Follows b.pageDown := h.scroll fun v => Viewport.lines_scrollDown v _
  have back : b.Follows b.pageUp := h.scroll fun v => Viewport.lines_scrollUp v _
  unfold Browser.browse
  split
  · exact h.unchanged
  · exact h.selectPrevious
  · exact h.selectNext
  · exact back
  · exact page
  · exact h.unchanged
  · exact h.selectPrevious
  · exact h.selectNext
  · exact Settled.follows ⟨h.empty, h.selected, h.failure⟩ prefix_rfl
  · exact Settled.follows ⟨h.empty, h.selected, h.failure⟩ prefix_rfl
  · exact Settled.follows ⟨h.empty, h.selected, h.failure⟩ prefix_rfl
  · exact h.openPrompt
  · exact h.openPrompt
  · exact page
  · exact page
  · exact back
  · exact h.scroll fun v => Viewport.lines_scrollUp v _
  · exact h.unchanged

/-- The function that was typed is the last one, and is selected. -/
theorem Consistent.submit (typing : b.typing = true) : b.Follows b.submit := by
  rw [Browser.submit]
  cases Idl.readFunction .empty b.prompt.value with
  | error f =>
    refine ⟨⟨⟨h.empty, h.selected, fun closed => ?_⟩, h.content⟩, prefix_rfl⟩
    rw [typing] at closed
    cases closed
  | ok v =>
    refine Settled.follows ⟨fun none => ?_, fun _ => ?_, fun _ => rfl⟩ (prefix_append _ _)
    · simp [Listed.ofGraph] at none
    · simp [Listed.ofGraph]

theorem Consistent.edit (typing : b.typing = true) (k : Key) : b.Follows (b.edit k).1 := by
  cases k with
  | interrupt => exact h.unchanged
  | escape =>
    rw [Browser.edit]
    split
    · exact h.unchanged
    · next some =>
      refine ⟨⟨⟨fun none => ?_, h.selected, fun _ => rfl⟩, h.content⟩, prefix_rfl⟩
      have none : b.functions = [] := none
      simp [none] at some
  | enter => exact h.submit typing
  | backspace | left | right | up | down | pageUp | pageDown | char => exact h.prompt _

theorem Consistent.update (msg : Message) : b.Follows (b.update msg) := by
  cases msg with
  | key k =>
    rw [Browser.update, press]
    split
    · next typing => exact h.edit typing k
    · exact h.browse k
  | text cs =>
    rw [Browser.update]
    split
    · exact h.prompt _
    · exact h.unchanged
  | prompt text => exact h.prompt _
  | window width height =>
    exact Settled.follows ⟨h.empty, h.selected, h.failure⟩ prefix_rfl
  | other move keeps => exact h.scroll keeps

theorem Consistent.run (messages : List Message) : b.Follows (messages.foldl Browser.update b) := by
  induction messages generalizing b with
  | nil => exact h.unchanged
  | cons msg messages ih =>
    have first := h.update msg
    have rest := ih first.consistent
    exact ⟨rest.consistent, first.functions.trans rest.functions⟩

end Keys

theorem ofFunctions_consistent (functions : List Listed) (realloc : String) :
    (ofFunctions functions realloc).Consistent := by
  refine Settled.refresh ⟨?_, ?_, fun _ => rfl⟩
  · rintro rfl
    exact ⟨rfl, rfl⟩
  · exact length_pos_iff.mpr

/-- **The browser stays consistent.** It begins with the given functions, and after any messages it
is consistent: without functions the prompt is open and the selection at the beginning, otherwise a
function is selected; no failure is pending while the prompt is closed; and the viewport holds the
rendering of the selected function, or nothing. Further messages only add functions behind those
that there are. -/
theorem messages_keep_consistent (functions : List Listed) (realloc : String)
    (messages more : List Message) :
    let b := messages.foldl update (ofFunctions functions realloc)
    b.Consistent ∧ functions <+: b.functions ∧ b.functions <+: (more.foldl update b).functions := by
  obtain ⟨consistent, grown⟩ := (ofFunctions_consistent functions realloc).run messages
  rw [show (ofFunctions functions realloc).functions = functions from functions_refresh _] at grown
  exact ⟨consistent, grown, (consistent.run more).functions⟩

end Browser

end CanonicalAbi.Tool
