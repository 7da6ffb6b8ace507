import Reactive.Proofs.Fitting

/-!
# Reactive.Proofs.Aborting — patches that stop at an edit that does not fit

An edit that does not fit leaves the class as it is (`applyEdit_eq_error`).  So a patch that fails at an edit has made
those before it, one after another, and nothing else (`forM_applyEdit_eq_error`); a patch that is not intact or is meant
for another class has made none.  `aborted_patch` says both.
-/

namespace Reactive

open Stateful

namespace ClassImage

variable {c c' : ClassImage} {e : PatchEdit} {es : List PatchEdit} {err : RuntimeError}

/-- Why an edit does not fit a class: what it adds is there, or what it changes is not. -/
inductive Unfit (c : ClassImage) : PatchEdit → Misfit → Prop
  | field {name type : String} {role : FieldRole} (there : name ∈ c.fields.map Prod.fst) :
      Unfit c (.addField name type role) (.fieldExists name)
  | property {name type getter : String} (there : c.properties.has name = true) :
      Unfit c (.addProperty name type getter) (.propertyExists name)
  | method {m : CompiledMethod} (there : c.Known m.name) : Unfit c (.addMethod m) (.methodExists m.name)
  | body {m : CompiledMethod} (missing : ¬ c.Known m.name) : Unfit c (.replaceBody m) (.nothingToReplace m.name)
  | initializer {property setter : String} (missing : property ∉ c.initializers.map Initializer.property) :
      Unfit c (.redirectInitializer property setter) (.noInitializer property)

/-- The second class is the first one with edits that have been made one after another. -/
inductive Edits : List PatchEdit → ClassImage → ClassImage → Prop
  | nil (c : ClassImage) : Edits [] c c
  | cons {c c₁ c' : ClassImage} {e : PatchEdit} {es : List PatchEdit} (first : Edited e c c₁) (rest : Edits es c₁ c') :
      Edits (e :: es) c c'

/-- No edit renames a class. -/
theorem Edited.name (h : Edited e c c') : c'.name = c.name := by
  cases e with
  | addStatic m =>
    obtain rfl := h
    rfl
  | addField | addProperty | addMethod | replaceBody =>
    obtain ⟨-, rfl⟩ := h
    rfl
  | redirectInitializer property setter =>
    obtain ⟨_, -, rfl⟩ := h
    rfl

theorem Edits.name (h : Edits es c c') : c'.name = c.name := by
  induction h with
  | nil c => rfl
  | cons first rest ih => exact ih.trans first.name

/-! ### One edit -/

theorem redirect_eq_none {property setter : String} {is : List Initializer} :
    redirect property setter is = none ↔ property ∉ is.map Initializer.property := by
  induction is with
  | nil => simp [redirect]
  | cons i is ih =>
    by_cases hi : i.property = property
    · simp [redirect, hi]
    · simp [redirect, hi, ih, Ne.symm hi]

/-- An edit fits or not, and not both. -/
theorem not_edited_of_unfit {reason : Misfit} (h : Unfit c e reason) : ¬ Edited e c c' := by
  cases h with
  | field there =>
    rintro ⟨hnew, -⟩
    obtain ⟨f, hf, hname⟩ := List.mem_map.mp there
    exact Bool.eq_false_iff.mp hnew (List.any_eq_true.mpr ⟨f, hf, beq_iff_eq.mpr hname⟩)
  | property there =>
    rintro ⟨hnew, -⟩
    exact Bool.eq_false_iff.mp hnew there
  | method there => exact fun h => h.1 there
  | body missing => exact fun h => missing h.1
  | initializer missing =>
    rintro ⟨is, his, -⟩
    rw [redirect_eq_none.mpr missing] at his
    cases his

/-- An edit that does not fit leaves the class as it is, and says why it does not. -/
theorem applyEdit_of_unfit {reason : Misfit} (h : Unfit c e reason) :
    applyEdit e c = .error (.misfit c.name reason) c := by
  unfold applyEdit
  rw [get_bind]
  cases h with
  | @field name type role there =>
    obtain ⟨f, hf, hname⟩ := List.mem_map.mp there
    have hany : c.fields.any (·.1 == name) = true := List.any_eq_true.mpr ⟨f, hf, beq_iff_eq.mpr hname⟩
    dsimp only
    rw [if_pos hany]
    rfl
  | property there =>
    dsimp only
    rw [if_pos there]
    rfl
  | method there =>
    dsimp only
    rw [if_pos ((known_iff c _).mpr there)]
    rfl
  | body missing =>
    dsimp only
    rw [if_neg fun h => missing ((known_iff c _).mp h)]
    rfl
  | initializer missing =>
    dsimp only
    rw [redirect_eq_none.mpr missing]
    rfl

/-- What is not unfit is made. -/
theorem exists_edited_or_unfit (e : PatchEdit) (c : ClassImage) :
    (∃ c', Edited e c c') ∨ ∃ reason, Unfit c e reason := by
  cases e with
  | addField name type role =>
    by_cases h : name ∈ c.fields.map Prod.fst
    · exact Or.inr ⟨_, .field h⟩
    · refine Or.inl ⟨_, Bool.eq_false_iff.mpr fun hany => h ?_, rfl⟩
      obtain ⟨f, hf, hname⟩ := List.any_eq_true.mp hany
      exact List.mem_map.mpr ⟨f, hf, beq_iff_eq.mp hname⟩
  | addStatic m => exact Or.inl ⟨_, rfl⟩
  | addProperty name type getter =>
    by_cases h : c.properties.has name = true
    · exact Or.inr ⟨_, .property h⟩
    · exact Or.inl ⟨_, Bool.eq_false_iff.mpr h, rfl⟩
  | addMethod m =>
    by_cases h : c.Known m.name
    · exact Or.inr ⟨_, .method h⟩
    · exact Or.inl ⟨_, h, rfl⟩
  | replaceBody m =>
    by_cases h : c.Known m.name
    · exact Or.inl ⟨_, h, rfl⟩
    · exact Or.inr ⟨_, .body h⟩
  | redirectInitializer property setter =>
    by_cases h : property ∈ c.initializers.map Initializer.property
    · obtain ⟨is, his⟩ := exists_redirect setter h
      exact Or.inl ⟨_, is, his, rfl⟩
    · exact Or.inr ⟨_, .initializer h⟩

theorem applyEdit_eq_error :
    applyEdit e c = .error err c' ↔ c' = c ∧ ∃ reason, Unfit c e reason ∧ err = .misfit c.name reason := by
  constructor
  · intro h
    obtain ⟨c₁, hedited⟩ | ⟨reason, hunfit⟩ := exists_edited_or_unfit e c
    · rw [applyEdit_of_edited hedited] at h
      cases h
    · rw [applyEdit_of_unfit hunfit] at h
      cases h
      exact ⟨rfl, reason, hunfit, rfl⟩
  · rintro ⟨rfl, reason, hunfit, rfl⟩
    exact applyEdit_of_unfit hunfit

/-! ### Edits one after another -/

theorem forM_cons_apply (e : PatchEdit) (es : List PatchEdit) (c : ClassImage) :
    (e :: es).forM applyEdit c = match applyEdit e c with
      | .ok _ c₁ => es.forM applyEdit c₁
      | .error err c₁ => .error err c₁ := by
  show (applyEdit e >>= fun _ => es.forM applyEdit) c = _
  rw [bind_apply]
  cases applyEdit e c <;> rfl

theorem forM_applyEdit_eq_ok : es.forM applyEdit c = .ok () c' ↔ Edits es c c' := by
  induction es generalizing c with
  | nil =>
    constructor
    · intro h
      cases h
      exact .nil _
    · rintro ⟨⟩
      rfl
  | cons e es ih =>
    constructor
    · intro h
      obtain ⟨_, c₁, h₁, h⟩ := bind_eq_ok.mp h
      exact .cons (edited_of_applyEdit h₁) (ih.mp h)
    · rintro (_ | ⟨first, rest⟩)
      exact bind_eq_ok.mpr ⟨(), _, applyEdit_of_edited first, ih.mpr rest⟩

/-- A patch fails at the first edit that does not fit the class by then. -/
theorem forM_applyEdit_eq_error : es.forM applyEdit c = .error err c' ↔
    ∃ before e after reason, es = before ++ e :: after ∧ Edits before c c' ∧ Unfit c' e reason ∧
      err = .misfit c.name reason := by
  induction es generalizing c with
  | nil =>
    constructor
    · intro h
      cases h
    · rintro ⟨before, e, after, reason, h, -⟩
      exact absurd h.symm (List.append_ne_nil_of_right_ne_nil before (List.cons_ne_nil e after))
  | cons e es ih =>
    rw [forM_cons_apply]
    obtain ⟨c₁, hedited⟩ | ⟨reason, hunfit⟩ := exists_edited_or_unfit e c
    · rw [applyEdit_of_edited hedited]
      dsimp only
      rw [ih, hedited.name]
      constructor
      · rintro ⟨before, e', after, reason, rfl, hbefore, hrest⟩
        exact ⟨e :: before, e', after, reason, rfl, .cons hedited hbefore, hrest⟩
      · rintro ⟨before, e', after, reason, hes, hbefore, hunfit, herr⟩
        cases hbefore with
        | nil c =>
          obtain ⟨rfl, -⟩ := List.cons_eq_cons.mp hes
          exact absurd hedited (not_edited_of_unfit hunfit)
        | cons first rest =>
          obtain ⟨rfl, rfl⟩ := List.cons_eq_cons.mp hes
          have hsame := (applyEdit_of_edited hedited).symm.trans (applyEdit_of_edited first)
          cases hsame
          exact ⟨_, e', after, reason, rfl, rest, hunfit, herr⟩
    · rw [applyEdit_of_unfit hunfit]
      constructor
      · intro h
        cases h
        exact ⟨[], e, es, reason, rfl, .nil _, hunfit, rfl⟩
      · rintro ⟨before, e', after, reason', hes, hbefore, hunfit', rfl⟩
        cases hbefore with
        | nil c =>
          obtain ⟨rfl, -⟩ := List.cons_eq_cons.mp hes
          rw [← applyEdit_of_unfit hunfit, applyEdit_of_unfit hunfit']
        | cons first rest =>
          obtain ⟨rfl, -⟩ := List.cons_eq_cons.mp hes
          exact absurd first (not_edited_of_unfit hunfit)

/-! ### Whole patches -/

theorem apply_apply (m : PatchModule) (c : ClassImage) : apply m c =
    if m.isIntact = true then
      if m.className = c.name then m.edits.forM applyEdit c else .error (.misfit c.name (.otherTarget m.className)) c
    else .error (.checksumMismatch m.checksum m.computeChecksum) c := by
  unfold apply
  by_cases hintact : m.isIntact = true
  · rw [if_pos hintact, if_pos hintact]
    by_cases hclass : m.className = c.name
    · rw [if_pos hclass]
      exact congrFun (if_pos hclass) c
    · rw [if_neg hclass]
      show (if m.className = c.name then _ else _ : Patching Unit) c = _
      rw [if_neg hclass]
      rfl
  · rw [if_neg hintact, if_neg hintact]
    rfl

/-- A patch that is applied is intact and of the class, and all its edits have been made. -/
theorem applied_patch {m : PatchModule} :
    apply m c = .ok () c' ↔ m.isIntact = true ∧ m.className = c.name ∧ Edits m.edits c c' := by
  rw [apply_apply]
  by_cases hintact : m.isIntact = true
  · rw [if_pos hintact]
    by_cases hclass : m.className = c.name
    · rw [if_pos hclass, forM_applyEdit_eq_ok]
      simp [hintact, hclass]
    · rw [if_neg hclass]
      simp [hclass]
  · rw [if_neg hintact]
    simp [hintact]

/-- **A failed patch stops where it fails.**  A module that is not intact, or is meant for another class, leaves the
class as it is.  Any other that fails has an edit that does not fit the class by then: the edits before it have been
made, in their order, and neither it nor what stands behind it has changed anything. -/
theorem aborted_patch {m : PatchModule} : apply m c = .error err c' ↔
    (m.isIntact = false ∧ err = .checksumMismatch m.checksum m.computeChecksum ∧ c' = c) ∨
    (m.isIntact = true ∧ m.className ≠ c.name ∧ err = .misfit c.name (.otherTarget m.className) ∧ c' = c) ∨
    (m.isIntact = true ∧ m.className = c.name ∧ ∃ before e after reason, m.edits = before ++ e :: after ∧
      Edits before c c' ∧ Unfit c' e reason ∧ err = .misfit c.name reason) := by
  rw [apply_apply]
  by_cases hintact : m.isIntact = true
  · rw [if_pos hintact]
    by_cases hclass : m.className = c.name
    · rw [if_pos hclass, forM_applyEdit_eq_error]
      simp [hintact, hclass]
    · rw [if_neg hclass]
      simp [hintact, hclass, eq_comm]
  · rw [if_neg hintact]
    simp [hintact, eq_comm]

/-- A class without members. -/
def cabinet : ClassImage := bare "Cabinet" true "InitializeReactiveObject"

/-- A patch that adds a field and then replaces a body that is not there. -/
def shelving : PatchModule :=
  .ofEdits "Cabinet" [.addField "shelf" "int" .propertySlot, .replaceBody ⟨"Open", 0, 0, [.retVoid]⟩]

/-- The patch fails, and the field stays in the class. -/
theorem failed_patch_leaves_field :
    apply shelving cabinet = .error (.misfit "Cabinet" (.nothingToReplace "Open"))
        { cabinet with fields := [("shelf", "int")] } ∧
      { cabinet with fields := [("shelf", "int")] } ≠ cabinet := by
  have hintact : shelving.isIntact = true := PatchModule.isIntact_sealed _
  have hclass : shelving.className = cabinet.name := rfl
  refine ⟨?_, by decide⟩
  rw [apply_apply, if_pos hintact, if_pos hclass]
  rfl

end ClassImage

end Reactive
