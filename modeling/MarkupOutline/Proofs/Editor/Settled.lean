import MarkupOutline.Editor.Basic
import MarkupOutline.Proofs.Outline.Coverage
import MarkupOutline.Proofs.Pretty.Spelled

/-! What an editor shows belongs to a text that was in it, and to the text that is in it as soon as no pass
waits. The text that waits for a pass is always the latest one, whatever was done and at what times. -/
namespace MarkupOutline

open Pretty Timing

/-- What a pass over an input shows, however the outline is folded afterwards. -/
inductive Preview.Tells (style : Style) (input : Text) : Preview → Prop where
  | blank (empty : Text.trim input = []) : Tells style input .blank
  | outlined {output : Text} {outline : Outline} (filled : Text.trim input ≠ [])
      (formatted : style.format input = .ok output) (based : Outline.Over Line.Angle.rules output outline) :
      Tells style input (.outlined outline)
  | failed {error : PrettyError} (filled : Text.trim input ≠ []) (refused : style.format input = .error error) :
      Tells style input (.failed error)

/-- What is shown after a last pass; nothing is shown before the first one. -/
def Preview.TellsLast (style : Style) (preview : Preview) : Option Text → Prop
  | none => preview = .blank
  | some input => preview.Tells style input

namespace Preview

variable {style : Style} {input : Text}

theorem tells_ofInput (style : Style) (input : Text) : (ofInput style input).Tells style input := by
  rw [ofInput]
  split
  · next empty => exact .blank ((Text.isBlank_iff input).mp empty)
  · next solid =>
    have filled : Text.trim input ≠ [] := fun empty => solid ((Text.isBlank_iff input).mpr empty)
    split
    · next output formatted => exact .outlined filled formatted (Outline.over_ofText _ output)
    · next error refused => exact .failed filled refused

theorem Tells.fold {outline : Outline} (told : Tells style input (.outlined outline)) (action : Outline.Action) :
    Tells style input (.outlined (outline.perform action).2) := by
  cases told with
  | outlined filled formatted based => exact .outlined filled formatted (based.perform_eq action).1

/-- The outline of a formatted text has a node, since there is an element in it. -/
theorem Tells.nonempty {outline : Outline} (told : Tells style input (.outlined outline)) :
    outline.isEmpty = false := by
  cases told with
  | outlined filled formatted based =>
    exact based.isEmpty_of_solid '<' (style.mark_mem_format input _ formatted) (by decide)

end Preview

namespace Editor

def run (editor : Editor) (actions : List Action) : Editor := actions.foldl perform editor

/-- Whether an action runs a pass. -/
def makesPass (editor : Editor) : Action → Bool
  | .advance now => (editor.advance now).1
  | .refresh => true
  | _ => false

/-- The texts that were in the editor when passes were run, in order. -/
def passInputs (editor : Editor) : List Action → List Text
  | [] => []
  | action :: rest =>
    if editor.makesPass action then editor.input :: (editor.perform action).passInputs rest
    else (editor.perform action).passInputs rest

/-- The text of the last pass is the one that is shown, and the one in the editor unless that waits itself.
Before the first pass the editor started empty. -/
structure Sound (style : Style) (last : Option Text) (editor : Editor) : Prop where
  styled : editor.style = style
  pending : ∀ deadline value, editor.window.waiting = some (deadline, value) → value = editor.input
  settled : editor.window.waiting = none → last.getD [] = editor.input
  shown : editor.preview.TellsLast style last

variable {style : Style} {last : Option Text} {editor : Editor}

theorem sound_start (style : Style) (delay : Nat) : Sound style none (start style delay) :=
  ⟨rfl, fun _ _ waits => (nomatch waits), fun _ => rfl, rfl⟩

theorem Sound.reformat (sound : Sound style last editor) (window : QuietWindow Text)
    (quiet : window.waiting = none) :
    Sound style (some editor.input) (reformat { editor with window } editor.input) where
  styled := sound.styled
  pending _ _ waits := by
    rw [Editor.reformat, quiet] at waits
    cases waits
  settled _ := rfl
  shown := by
    rw [← sound.styled]
    exact Preview.tells_ofInput editor.style editor.input

theorem Sound.edit (sound : Sound style last editor) (now : Nat) (input : Text) :
    Sound style last (editor.edit now input) where
  styled := sound.styled
  pending _ _ waits := by
    cases waits
    rfl
  settled quiet := nomatch quiet
  shown := sound.shown

theorem Sound.advance_cases (sound : Sound style last editor) (now : Nat) :
    editor.advance now = (false, editor) ∨ ∃ window : QuietWindow Text, window.waiting = none ∧
      editor.advance now = (true, Editor.reformat { editor with window } editor.input) := by
  cases waits : editor.window.waiting with
  | none =>
    left
    rw [advance, QuietWindow.poll_idle waits]
  | some entry =>
    obtain ⟨deadline, value⟩ := entry
    by_cases due : deadline ≤ now
    · right
      refine ⟨editor.window.take.2, rfl, ?_⟩
      rw [advance, QuietWindow.poll_due waits due, sound.pending deadline value waits]
    · left
      rw [advance, QuietWindow.poll_early waits due]

theorem Sound.fold (sound : Sound style last editor) (action : Outline.Action) :
    Sound style last (editor.fold action).2 := by
  rw [Editor.fold, outline?]
  split
  · next outline shows =>
    split at shows
    · next same =>
      cases shows
      refine ⟨sound.styled, sound.pending, sound.settled, ?_⟩
      have shown := sound.shown
      rw [same] at shown
      cases last with
      | none => cases shown
      | some input => exact Preview.Tells.fold shown action
    · cases shows
  · exact sound

theorem Sound.perform (sound : Sound style last editor) (action : Action) :
    Sound style (if editor.makesPass action then some editor.input else last) (editor.perform action) := by
  cases action with
  | edit now input => exact sound.edit now input
  | openSample now => exact sound.edit now sample
  | advance now =>
    rw [makesPass, Editor.perform]
    rcases sound.advance_cases now with same | ⟨window, quiet, same⟩
    · rw [same]
      exact sound
    · rw [same]
      exact sound.reformat window quiet
  | refresh => exact sound.reformat editor.window.cancel.2 rfl
  | fold action => exact sound.fold action

theorem Sound.run (sound : Sound style last editor) (actions : List Action) :
    Sound style ((editor.passInputs actions).getLast?.or last) (editor.run actions) := by
  induction actions generalizing editor last with
  | nil => exact sound
  | cons action rest inductionHypothesis =>
    have later := inductionHypothesis (sound.perform action)
    rw [passInputs]
    split
    · next pass =>
      rw [if_pos pass] at later
      rw [List.getLast?_cons, Option.some_or]
      cases final : ((editor.perform action).passInputs rest).getLast? with
      | none => rwa [final] at later
      | some input => rwa [final] at later
    · next still => rwa [if_neg still] at later

/-- A pass makes a new outline of the text in the editor, or none. -/
theorem Sound.preview_pass (sound : Sound style last editor) (action : Action)
    (pass : editor.makesPass action = true) :
    (editor.perform action).preview = .ofInput style editor.input := by
  cases action with
  | edit | openSample | fold => cases pass
  | advance now =>
    rw [makesPass] at pass
    rcases sound.advance_cases now with same | ⟨window, quiet, same⟩
    · rw [same] at pass
      cases pass
    · rw [Editor.perform, same, ← sound.styled]
      rfl
  | refresh =>
    rw [← sound.styled]
    rfl

theorem Sound.tells (sound : Sound style last editor) (quiet : editor.window.waiting = none) :
    editor.preview.Tells style editor.input := by
  have settled := sound.settled quiet
  have shown := sound.shown
  cases last with
  | none =>
    rw [shown, ← settled]
    exact .blank rfl
  | some input =>
    rw [← settled]
    exact shown

/-- An outline that is shown has a node. -/
theorem Sound.nonempty (sound : Sound style last editor) {outline : Outline}
    (same : editor.preview = .outlined outline) : outline.isEmpty = false := by
  have shown := sound.shown
  rw [same] at shown
  cases last with
  | none => cases shown
  | some input => exact Preview.Tells.nonempty shown

private theorem folding_ofInput {input : Text} {outline : Outline}
    (same : Preview.ofInput style input = .outlined outline) (id : Nat) (node : Outline.Node)
    (found : outline.skeleton.nodes[id]? = some node) (folds : node.nameBytes.isSome = true) :
    outline.folding id = .expanded := by
  rw [Preview.ofInput] at same
  split at same
  · cases same
  · split at same
    · next output formatted =>
      cases same
      rw [Outline.folding_ofText _ output id node found, if_pos folds]
    · cases same

/-- However an editor has been used: the text that waits for a pass is the one in the editor; when none waits,
what is shown belongs to the text in the editor, and at all times to the text of the last pass; outline, error
and output tell the same, and an outline is not empty; and a pass leaves everything expanded. -/
theorem run_settles (style : Style) (delay : Nat) (actions : List Action) :
    let editor := (start style delay).run actions
    (∀ deadline value, editor.window.waiting = some (deadline, value) → value = editor.input) ∧
      (editor.deadline? = none → editor.preview.Tells style editor.input) ∧
      editor.preview.TellsLast style ((start style delay).passInputs actions).getLast? ∧
      ((editor.preview = .blank ∧ editor.outline? = none ∧ editor.error? = none ∧ editor.output = []) ∨
        (∃ outline, editor.preview = .outlined outline ∧ editor.outline? = some outline ∧
          editor.error? = none ∧ editor.output = outline.text ∧ outline.isEmpty = false) ∨
        ∃ error, editor.preview = .failed error ∧ editor.outline? = none ∧ editor.error? = some error ∧
          editor.output = []) ∧
      ∀ action, editor.makesPass action = true → ∀ outline, (editor.perform action).outline? = some outline →
        ∀ id node, outline.skeleton.nodes[id]? = some node → node.nameBytes.isSome = true →
          outline.folding id = .expanded := by
  intro editor
  have sound := (sound_start style delay).run actions
  rw [Option.or_none] at sound
  refine ⟨sound.pending, ?_, sound.shown, ?_, ?_⟩
  · intro quiet
    exact sound.tells (Option.map_eq_none_iff.mp quiet)
  · cases same : editor.preview with
    | blank =>
      left
      simp [output, outline?, error?, same]
    | outlined outline =>
      right; left
      refine ⟨outline, rfl, ?_⟩
      simp [output, outline?, error?, same, sound.nonempty same]
    | failed error =>
      right; right
      exact ⟨error, rfl, by simp [output, outline?, error?, same]⟩
  · intro action pass outline shows id node found folds
    have preview := sound.preview_pass action pass
    rw [outline?] at shows
    split at shows
    · next same =>
      cases shows
      exact folding_ofInput (preview.symm.trans same) id node found folds
    · cases shows

/-- An editor in which a folded outline is shown while the next text waits, and the pass over that text. -/
theorem run_settles_folded :
    let actions := [.edit 5 "<a><b/></a>".toList, .advance 304, .advance 305, .fold (.toggle [0])]
    let settled := (start .standard 300).run actions
    let editor := (start .standard 300).run (actions ++ [.edit 2 "<c><d/></c>".toList])
    settled.deadline? = none ∧ settled.preview.Tells .standard settled.input ∧
      editor.window.waiting = some (302, editor.input) ∧ editor.output = "<a>\n  <b/>\n</a>".toList ∧
      editor.makesPass (.advance 302) = true ∧
      ∃ outline node, (editor.perform (.advance 302)).outline? = some outline ∧
        outline.skeleton.nodes[0]? = some node ∧ node.nameBytes = some 1 ∧ outline.folding 0 = .expanded := by
  intro actions settled editor
  have quiet : settled.deadline? = none := by decide +kernel
  have pass : editor.makesPass (.advance 302) = true := by decide +kernel
  have entry : editor.window.waiting.map Prod.fst = some 302 := by decide +kernel
  obtain ⟨⟨deadline, value⟩, waits, rfl⟩ := Option.map_eq_some_iff.mp entry
  obtain ⟨outline, shows⟩ : ∃ outline, (editor.perform (.advance 302)).outline? = some outline :=
    Option.isSome_iff_exists.mp (by decide +kernel)
  have named : ((editor.perform (.advance 302)).outline?.bind fun outline =>
      outline.skeleton.nodes[0]?.bind Outline.Node.nameBytes) = some 1 := by decide +kernel
  rw [shows, Option.bind_some] at named
  obtain ⟨node, found, folds⟩ := Option.bind_eq_some_iff.mp named
  have before := run_settles .standard 300 actions
  have ⟨pending, _, _, _, expanded⟩ :=
    run_settles .standard 300 (actions ++ [.edit 2 "<c><d/></c>".toList])
  exact ⟨quiet, before.2.1 quiet, pending _ value waits ▸ waits, by decide +kernel, pass, outline, node, shows, found,
    folds, expanded _ pass outline shows 0 node found (by rw [folds]; rfl)⟩

end Editor

end MarkupOutline
