import Reactive.Proofs.Accessing
import Reactive.Proofs.Patching
import Reactive.Proofs.Setters
import Reactive.Proofs.Termination

/-!
# Reactive.Proofs.Purity — reading is pure up to lazy values

* `Setting.reading_is_pure`: reading a property of an object may compute lazy values of it, and does nothing else; reading
  it once more gives the same value and does not even that.  In a setting no derived value is the result of a method of
  the name of the init method: reading such a value runs init.
* `porchSetting`: a porch is a setting, so there is something of which this is said, and what is said of fresh values.
-/

namespace Reactive

open Stateful Run

namespace Setting

variable {T : Setting} {m m' : Machine}

/-- In a reachable machine the object of a setting is there, and no field of it holds an object. -/
structure Reached (T : Setting) (m : Machine) : Prop where
  reachable : Reachable T.classes m
  present : ∃ i, m.objects[T.object]? = some i ∧ i.image = T.own.image
  plain : ∀ field v, m.field? T.object field = some v → v.isObject = false

theorem Reached.live (h : T.Reached m) : T.Live m := by
  obtain ⟨i, hi, himage⟩ := h.present
  exact ⟨Scene.at_of_reachable h.reachable hi himage, fun field v hv _ _ => h.plain field v hv⟩

/-- What is seen of a machine that can be computed: the object is one of the class, and its fields hold no objects. -/
theorem Reached.of_fields (h : Reachable T.classes m) (himage : m.objects[T.object]?.map Instance.image = some T.own.image)
    (hplain : (m.objects[T.object]?.all fun i => i.fields.all fun entry => !entry.2.isObject) = true) : T.Reached m := by
  refine ⟨h, Option.map_eq_some_iff.mp himage, fun field v hv => ?_⟩
  obtain ⟨i, hi, hfield⟩ := Option.bind_eq_some_iff.mp hv
  rw [hi] at hplain
  simpa using List.all_eq_true.mp hplain _ (Table.mem_of_find? hfield)

/-- With more instructions than the longest method has no read is cut off. -/
theorem read_ne_exhausted (h : Reachable T.classes m) (hsized : ∀ L ∈ T.classes, L.Sized) {fuel : Nat}
    (hfuel : LoadedClass.longest T.classes < fuel) (x : String) (m' : Machine) :
    getProperty fuel T.object x m ≠ .error .exhausted m' := by
  have hguarded := guarded_of_longest (fun L hL => (T.tame.loads L hL).assembled) hsized hfuel
  obtain ⟨-, hpermitted⟩ := hguarded.agree_perform (.get T.object x) m h.of
  intro hrun
  rw [show (Action.get T.object x).perform fuel m = _ from discard_apply .., hrun] at hpermitted
  exact hpermitted rfl

/-- **Reading is pure up to lazy values.**  Let the values of an object be computed from their sources alone, and let no
field of it hold an object.  If a reactive property or a derived value of it is read, this gives its value; lazy values
that had not been computed may have been computed, as they are, and nothing else has changed: no other field, no other
object, no command and no registration, and nothing has been observed but calls of methods without a body.  If it is
read once more it gives the same value, and nothing changes, such calls apart. -/
theorem reading_is_pure (h : T.Reached m) (hsized : ∀ L ∈ T.classes, L.Sized) {x : String}
    (hx : T.Among (fun _ => True) x) {fuel : Nat} (hfuel : LoadedClass.longest T.classes < fuel) {v : Value}
    (hread : getProperty fuel T.object x m = .ok v m') :
    T.Reads m x v ∧ T.Tracked (fun _ => True) m m' ∧
      ∃ m'', getProperty fuel T.object x m' = .ok v m'' ∧ m'.Idle m'' := by
  obtain ⟨b, hb⟩ := reliable True ClassModel.closed_all hx
  have hgives := hb maxDepth fuel (Or.inl trivial) (T.reading m) [] m h.live rfl
  have hreached : Reachable T.classes m' := by
    have hstep := h.reachable.perform fuel (.get T.object x)
    rwa [show (Action.get T.object x).perform fuel m = _ from discard_apply .., hread] at hstep
  rw [Gives, show read (enter fuel maxDepth) [] T.object x m = .ok v m' from hread] at hgives
  obtain ⟨⟨w, hw, rfl, -⟩, htracked, hrepeats⟩ := hgives
  refine ⟨reading_eq_some_iff.mp hw, htracked, ?_⟩
  have hagain := hrepeats m' (.refl htracked.live)
  cases hrun : read (enter fuel maxDepth) [] T.object x m' with
  | ok w m'' =>
    rw [hrun] at hagain
    obtain ⟨rfl, hidle⟩ := hagain
    exact ⟨m'', hrun, hidle⟩
  | error e m'' =>
    rw [hrun] at hagain
    obtain rfl : e = .exhausted := hagain
    exact absurd hrun (read_ne_exhausted hreached hsized hfuel x m'')

end Setting

/-- Generated fields have other names than those of automatic properties. -/
theorem LoadedClass.Loads.autoField_not_mem {L : LoadedClass} {model : ClassModel} (h : L.Loads) (hmodel : L.model = some model)
    (x : String) : Naming.autoField x ∉ model.fieldNames := fun hx =>
  Naming.ne_of_head ((h.generated hmodel).2.head_of_mem_fieldNames hx) (Naming.head_autoField x) (by decide) rfl

/-! ### Reading a porch -/

/-- A derived value with a body of its own is not the instance itself. -/
def DerivedProperty.isWithheld (d : DerivedProperty) : Bool :=
  match d.recompute with
  | some (.inline body) => body.withholds (.ofInstance [])
  | _ => true

theorem declaration_porch : porchClass.declaration = porch := (LoadedClass.load?_eq_some load?_porch).2.1

/-- The derived values of a porch are not the porch itself, nothing observes them, and they are computed from sources that
are tracked. -/
theorem derived_porch : ∀ d ∈ porchModel.derived, d.isWithheld = true ∧ d.isObservable = false ∧
    (∀ i ∈ d.sources, porchModel.Tracks i) ∧
      ∀ n ∈ (porchClass.formula? porchModel d).elim [] Formula.readNames,
        ∃ i ∈ d.sources, porchModel.members.resolve? n = some i := by
  unfold ClassModel.Tracks
  decide +kernel

/-- What is declared of a porch does not have the porch itself for its value. -/
theorem withholds_porch : porchClass.Withholds porchModel := by
  have hbodies : porch.bodies =
      [.binary .greater (.name "Lux" .none) (.literal (.int 20) .none) .none, .name "Lit" .none] := rfl
  refine ⟨fun name params body h _ => ?_, fun d hd body h => ?_, by decide +kernel⟩
  · have hbody := (declaration_porch ▸ h : porch.HasBody name params body).mem_bodies
    rw [hbodies] at hbody
    obtain rfl | hbody := List.mem_cons.mp hbody
    · rfl
    · rw [List.mem_singleton.mp hbody]
      rfl
  · have hvalue := (derived_porch d hd).1
    rwa [DerivedProperty.isWithheld, h] at hvalue

theorem orderly_porch : porchModel.Orderly := by
  obtain ⟨-, -, hanalyzed, -⟩ := LoadedClass.load?_eq_some load?_porch
  exact (analyzeClass_eq_some (hanalyzed.trans model_porch)).2.2.2 (by decide +kernel)

theorem distinct_porch : porchClass.declaration.Distinct := by
  rw [declaration_porch]
  refine ⟨by decide, fun member hmem decl hkind x => ?_⟩
  simp only [porch, List.mem_cons, List.not_mem_nil, or_false] at hmem
  obtain rfl | rfl | rfl := hmem
  · cases hkind
  · cases hkind
  · have hne := @Naming.hook_ne "Lux" _ (List.mem_cons_of_mem _ List.mem_cons_self) x
    exact ⟨hne.1, hne.2.1⟩

theorem unobserved_porch : ∀ d ∈ porchModel.derived, d.isObservable = false := fun d hd => (derived_porch d hd).2.1

theorem tracked_porch : ∀ d ∈ porchModel.derived, ∀ i ∈ d.sources, porchModel.Tracks i := fun d hd => (derived_porch d hd).2.2.1

theorem traced_porch : ∀ d ∈ porchModel.derived, ∀ φ, porchClass.formula? porchModel d = some φ →
    ∀ n ∈ φ.readNames, ∃ i ∈ d.sources, porchModel.members.resolve? n = some i := by
  intro d hd φ hφ n hn
  exact (derived_porch d hd).2.2.2 n (by rw [hφ]; exact hn)

theorem fields_porch (x : String) : Naming.autoField x ∉ porchModel.fieldNames :=
  (LoadedClass.load?_eq_some load?_porch).1.autoField_not_mem model_porch x

/-- The first object as a porch. -/
def porchSetting : Setting where
  classes := [porchClass]
  tame := tame_porch
  own := porchClass
  mem := List.mem_singleton.mpr rfl
  model := porchModel
  generated := model_porch
  object := 0
  plain := True
  withholds := fun _ => withholds_porch
  leaves := trivial
  orderly := orderly_porch
  distinct := distinct_porch
  unobserved := unobserved_porch
  tracked := tracked_porch
  traced := traced_porch
  commands := orderly_porch.commands
  fields := fields_porch

/-- A new porch is the only object, and holds none; there are no commands. -/
theorem alone_porch : porchClass.alone.objects.length = 1 ∧ porchClass.alone.commands = [] ∧
    porchClass.alone.objects[0]?.map Instance.image = some porchClass.image ∧
      (porchClass.alone.objects[0]?.all fun i => i.fields.all fun entry => !entry.2.isObject) = true := by
  decide +kernel

/-- A new porch is an object of the setting. -/
theorem reached_porch : porchSetting.Reached porchClass.alone :=
  .of_fields (.perform (.load .empty (List.mem_singleton.mpr rfl)) 100 _) alone_porch.2.2.1 alone_porch.2.2.2

/-- A new porch is not lit.  This is computed when it is first read, and the second time it is read nothing changes. -/
theorem reading_is_pure_porch : porchSetting.Reached porchClass.alone ∧ ∃ m' m'',
    getProperty 100 0 porchLit.name porchClass.alone = .ok (.bool false) m' ∧
      porchSetting.Tracked (fun _ => True) porchClass.alone m' ∧
        getProperty 100 0 porchLit.name m' = .ok (.bool false) m'' ∧ m'.Idle m'' := by
  have hsized : ∀ L ∈ porchSetting.classes, L.Sized :=
    List.forall_mem_singleton.mpr (LoadedClass.sized_of_codes (by decide +kernel))
  have hread : getProperty 100 0 porchLit.name porchClass.alone = .ok (.bool false) _ :=
    eq_ok_of_run' (by decide +kernel)
  obtain ⟨-, htracked, m'', hagain, hidle⟩ := porchSetting.reading_is_pure reached_porch hsized
    (Or.inr ⟨porchLit, List.get_mem _ _, rfl, trivial⟩) (by decide +kernel) hread
  exact ⟨reached_porch, _, m'', hread, htracked, hagain, hidle⟩

end Reactive
