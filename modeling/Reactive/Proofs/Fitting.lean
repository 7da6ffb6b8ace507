import Reactive.Proofs.Baseline

/-!
# Reactive.Proofs.Fitting — edits that fit a class

* `ClassImage.Fits`: the edits add what is not there, each name once, and replace and redirect what is there.
* `ClassImage.Fits.forM`: edits that fit are all made.
* `ClassImage.Keeps`: what is not named by an edit stays as it is; `ClassImage.Brings`: what is named is there.
-/

namespace Reactive

open Stateful

namespace PatchEdit

/-- The name of the property that an edit adds. -/
def property? : PatchEdit → Option String
  | .addProperty name _ _ => some name
  | _ => none

/-- The name of the method that an edit brings in, and whether it is new. -/
def writtenMethod? : PatchEdit → Option (Bool × String)
  | .addMethod m => some (true, m.name)
  | .replaceBody m => some (false, m.name)
  | _ => none

/-- The property whose initial value an edit redirects. -/
def redirected? : PatchEdit → Option String
  | .redirectInitializer property _ => some property
  | _ => none

end PatchEdit

/-- Names that are all different, and none of which is an old one. -/
structure Anew (old : String → Prop) (names : List String) : Prop where
  distinct : names.Nodup
  apart : ∀ n ∈ names, ¬ old n

/-- The first names become old ones. -/
theorem Anew.behind {old old' : String → Prop} {xs ys : List String} (h : Anew old (xs ++ ys))
    (hold : ∀ n, old' n → n ∈ xs ∨ old n) : Anew old' ys := by
  obtain ⟨-, hdistinct, hapart⟩ := List.nodup_append.mp h.distinct
  refine ⟨hdistinct, fun n hn hn' => ?_⟩
  obtain hx | hn' := hold n hn'
  · exact hapart n hx n hn rfl
  · exact h.apart n (List.mem_append_right _ hn) hn'

namespace ClassImage

/-- The names of the methods that are new, or of those that are replaced. -/
def methodsOf (new : Bool) (entries : List (Bool × String)) : List String :=
  (entries.filter (·.1 = new)).map Prod.snd

theorem methodsOf_append (new : Bool) (xs ys : List (Bool × String)) :
    methodsOf new (xs ++ ys) = methodsOf new xs ++ methodsOf new ys := by
  rw [methodsOf, List.filter_append, List.map_append]
  rfl

/-- Edits that add what is not there, and replace and redirect what is there. -/
structure Fits (c : ClassImage) (es : List PatchEdit) : Prop where
  fields : Anew (· ∈ c.fields.map Prod.fst) (es.filterMap PatchEdit.field?)
  properties : Anew (c.properties.has · = true) (es.filterMap PatchEdit.property?)
  methods : Anew c.Known (methodsOf true (es.filterMap PatchEdit.writtenMethod?))
  replaced : ∀ n ∈ methodsOf false (es.filterMap PatchEdit.writtenMethod?), c.Known n
  redirected : ∀ n ∈ es.filterMap PatchEdit.redirected?, n ∈ c.initializers.map Initializer.property

variable {c c' : ClassImage}

/-- An initial value that is there can be redirected. -/
theorem exists_redirect {property : String} (setter : String) : ∀ {is : List Initializer},
    property ∈ is.map Initializer.property → ∃ is', redirect property setter is = some is'
  | [], h => by cases h
  | i :: is, h => by
    unfold redirect
    by_cases hi : i.property = property
    · exact ⟨_, if_pos hi⟩
    · rw [if_neg hi]
      obtain ⟨is', hredirect⟩ := exists_redirect setter ((List.mem_cons.mp h).resolve_left (Ne.symm hi))
      exact ⟨i :: is', by rw [hredirect]; rfl⟩

/-- What is redirected has its property still. -/
theorem properties_redirect {property setter : String} : ∀ {is is' : List Initializer},
    redirect property setter is = some is' → is'.map Initializer.property = is.map Initializer.property
  | [], _, h => by cases h
  | i :: is, is', h => by
    unfold redirect at h
    split at h
    · cases h
      rfl
    · obtain ⟨rest, hrest, rfl⟩ := Option.map_eq_some_iff.mp h
      rw [List.map_cons, List.map_cons, properties_redirect hrest]

/-- An edit is made if it is in order. -/
theorem applyEdit_of_edited {e : PatchEdit} (h : Edited e c c') : applyEdit e c = .ok () c' := by
  cases e with
  | addField name type role =>
    obtain ⟨hnew, rfl⟩ := h
    show (if c.fields.any (·.1 == name) then _ else set _ : Patching Unit) c = _
    rw [if_neg (Bool.eq_false_iff.mp hnew)]
    rfl
  | addStatic m =>
    obtain rfl := h
    rfl
  | addProperty name type getter =>
    obtain ⟨hnew, rfl⟩ := h
    show (if c.properties.has name then _ else set _ : Patching Unit) c = _
    rw [if_neg (Bool.eq_false_iff.mp hnew)]
    rfl
  | addMethod m =>
    obtain ⟨hnew, rfl⟩ := h
    show (if c.methods.has m.name || c.opaqueBodies.has m.name then _ else set _ : Patching Unit) c = _
    rw [if_neg fun hknown => hnew ((known_iff c m.name).mp hknown)]
    rfl
  | replaceBody m =>
    obtain ⟨hknown, rfl⟩ := h
    show (if c.methods.has m.name || c.opaqueBodies.has m.name then set _ else _ : Patching Unit) c = _
    rw [if_pos ((known_iff c m.name).mpr hknown)]
    rfl
  | redirectInitializer property setter =>
    obtain ⟨initializers, hredirect, rfl⟩ := h
    unfold applyEdit
    rw [Stateful.get_bind]
    dsimp only
    rw [hredirect]
    rfl

/-- The class has the body of an edit, and no other one more. -/
theorem known_edited {e : PatchEdit} (h : Edited e c c') (n : String) :
    c'.Known n ↔ n ∈ (e.writtenMethod?.map Prod.snd).toList ∨ c.Known n := by
  cases e with
  | addField | addProperty =>
    obtain ⟨-, rfl⟩ := h
    exact ⟨Or.inr, fun h => h.resolve_left List.not_mem_nil⟩
  | addStatic m =>
    obtain rfl := h
    exact ⟨Or.inr, fun h => h.resolve_left List.not_mem_nil⟩
  | addMethod m =>
    obtain ⟨-, rfl⟩ := h
    rw [known_putMethod]
    simp [PatchEdit.writtenMethod?]
  | replaceBody m =>
    obtain ⟨-, rfl⟩ := h
    rw [known_putMethod]
    unfold Known
    simp only [Table.has, Table.find?_drop]
    by_cases hn : n = m.name <;> simp [PatchEdit.writtenMethod?, hn]
  | redirectInitializer property setter =>
    obtain ⟨_, -, rfl⟩ := h
    exact ⟨Or.inr, fun h => h.resolve_left List.not_mem_nil⟩

/-- The class has the field of an edit, and no other one more. -/
theorem fields_edited {e : PatchEdit} (h : Edited e c c') :
    c'.fields.map Prod.fst = c.fields.map Prod.fst ++ e.field?.toList := by
  cases e with
  | addField name type role =>
    obtain ⟨-, rfl⟩ := h
    exact List.map_append
  | addStatic m =>
    obtain rfl := h
    exact (List.append_nil _).symm
  | addProperty | addMethod | replaceBody =>
    obtain ⟨-, rfl⟩ := h
    exact (List.append_nil _).symm
  | redirectInitializer property setter =>
    obtain ⟨_, -, rfl⟩ := h
    exact (List.append_nil _).symm

/-- The class has the property of an edit, and no other one more. -/
theorem properties_edited {e : PatchEdit} (h : Edited e c c') (n : String) :
    c'.properties.has n = true ↔ n ∈ e.property?.toList ∨ c.properties.has n = true := by
  cases e with
  | addProperty name type getter =>
    obtain ⟨-, rfl⟩ := h
    simp only [Table.has, Table.find?_put]
    by_cases hn : n = name <;> simp [PatchEdit.property?, hn]
  | addStatic m =>
    obtain rfl := h
    exact ⟨Or.inr, fun h => h.resolve_left List.not_mem_nil⟩
  | addField | addMethod | replaceBody =>
    obtain ⟨-, rfl⟩ := h
    exact ⟨Or.inr, fun h => h.resolve_left List.not_mem_nil⟩
  | redirectInitializer property setter =>
    obtain ⟨_, -, rfl⟩ := h
    exact ⟨Or.inr, fun h => h.resolve_left List.not_mem_nil⟩

/-- The initial values stay those of the same properties. -/
theorem initializers_edited {e : PatchEdit} (h : Edited e c c') :
    c'.initializers.map Initializer.property = c.initializers.map Initializer.property := by
  cases e with
  | redirectInitializer property setter =>
    obtain ⟨is, hredirect, rfl⟩ := h
    exact properties_redirect hredirect
  | addStatic m =>
    obtain rfl := h
    rfl
  | addField | addProperty | addMethod | replaceBody =>
    obtain ⟨-, rfl⟩ := h
    rfl

/-- The first of some edits that fit is in order. -/
theorem Fits.edited {e : PatchEdit} {es : List PatchEdit} (h : c.Fits (e :: es)) : ∃ c', Edited e c c' := by
  cases e with
  | addField name type role =>
    refine ⟨_, Bool.eq_false_iff.mpr fun hany => ?_, rfl⟩
    obtain ⟨f, hf, hname⟩ := List.any_eq_true.mp hany
    exact h.fields.apart name List.mem_cons_self (List.mem_map.mpr ⟨f, hf, beq_iff_eq.mp hname⟩)
  | addStatic m => exact ⟨_, rfl⟩
  | addProperty name type getter =>
    exact ⟨_, Bool.eq_false_iff.mpr (h.properties.apart name List.mem_cons_self), rfl⟩
  | addMethod m => exact ⟨_, h.methods.apart m.name List.mem_cons_self, rfl⟩
  | replaceBody m => exact ⟨_, h.replaced m.name List.mem_cons_self, rfl⟩
  | redirectInitializer property setter =>
    obtain ⟨is, hredirect⟩ := exists_redirect setter (h.redirected property List.mem_cons_self)
    exact ⟨_, is, hredirect, rfl⟩

/-- When the first of some edits is made, the others fit. -/
theorem Fits.tail {e : PatchEdit} {es : List PatchEdit} (h : c.Fits (e :: es)) (hedit : Edited e c c') :
    c'.Fits es := by
  obtain ⟨hfields, hproperties, hmethods, hreplaced, hredirected⟩ := h
  rw [filterMap_cons_toList] at hfields hproperties hmethods hreplaced hredirected
  rw [methodsOf_append] at hmethods hreplaced
  have hknown := known_edited hedit
  refine ⟨hfields.behind fun n hn => ?_, hproperties.behind fun n hn => ?_, hmethods.behind fun n hn => ?_,
    fun n hn => ?_, ?_⟩
  · rw [fields_edited hedit] at hn
    exact (List.mem_append.mp hn).symm
  · exact (properties_edited hedit n).mp hn
  · obtain hn | hn := (hknown n).mp hn
    · -- A body that is replaced was there before.
      obtain ⟨⟨new, name⟩, hentry, rfl⟩ := Option.map_eq_some_iff.mp (Option.mem_toList.mp hn)
      rw [hentry] at hreplaced
      cases new with
      | true =>
        rw [hentry]
        exact Or.inl List.mem_cons_self
      | false => exact Or.inr (hreplaced name (List.mem_append_left _ List.mem_cons_self))
    · exact Or.inr hn
  · exact (hknown n).mpr (Or.inr (hreplaced n (List.mem_append_right _ hn)))
  · rw [initializers_edited hedit]
    exact fun n hn => hredirected n (List.mem_append_right _ hn)

/-- Edits that fit are all made. -/
theorem Fits.forM : ∀ {es : List PatchEdit} {c : ClassImage}, c.Fits es → ∃ c', es.forM applyEdit c = .ok () c'
  | [], c, _ => ⟨c, rfl⟩
  | e :: es, c, h => by
    obtain ⟨c₁, hedit⟩ := h.edited
    obtain ⟨c', hrun⟩ := (h.tail hedit).forM
    exact ⟨c', bind_eq_ok.mpr ⟨(), c₁, applyEdit_of_edited hedit, hrun⟩⟩

/-! ### What stays -/

/-- The class has the same body of a name, or none of it in both. -/
def SameBody (c c' : ClassImage) (n : String) : Prop :=
  c'.methods.find? n = c.methods.find? n ∧ c'.opaqueBodies.find? n = c.opaqueBodies.find? n

/-- What some edits leave as it is: the bodies and the initial values that they do not name, all properties and all
fields. -/
structure Keeps (es : List PatchEdit) (c c' : ClassImage) : Prop where
  bodies : ∀ n, n ∉ (es.filterMap PatchEdit.writtenMethod?).map Prod.snd → c.SameBody c' n
  externs : c'.externs = c.externs
  properties : ∀ n p, c.properties.find? n = some p → c'.properties.find? n = some p
  fields : c.fields <+: c'.fields
  initializers : ∀ keep : Initializer → Bool, (∀ i, keep i = true → i.property ∉ es.filterMap PatchEdit.redirected?) →
    c'.initializers.filter keep = c.initializers.filter keep

theorem Keeps.refl (c : ClassImage) : Keeps [] c c := ⟨fun _ _ => ⟨rfl, rfl⟩, rfl, fun _ _ => id, List.prefix_rfl, fun _ _ => rfl⟩

/-- Initial values of other properties stay, in their order, when one is redirected. -/
theorem filter_redirect {property setter : String} {keep : Initializer → Bool}
    (hkeep : ∀ i, keep i = true → i.property ≠ property) : ∀ {is is' : List Initializer},
      redirect property setter is = some is' → is'.filter keep = is.filter keep
  | [], _, h => by cases h
  | i :: is, is', h => by
    unfold redirect at h
    split at h
    · rename_i hi
      cases h
      have hdrop (j : Initializer) (hj : j.property = property) : (j :: is).filter keep = is.filter keep :=
        List.filter_cons_of_neg fun hkept => hkeep j hkept hj
      rw [hdrop i hi, hdrop { i with target := .setter setter } hi]
    · obtain ⟨rest, hrest, rfl⟩ := Option.map_eq_some_iff.mp h
      rw [List.filter_cons, List.filter_cons, filter_redirect hkeep hrest]

/-- What one edit leaves as it is. -/
theorem Edited.keeps {e : PatchEdit} (h : Edited e c c') : Keeps [e] c c' := by
  cases e with
  | addField name type role =>
    obtain ⟨-, rfl⟩ := h
    exact ⟨fun _ _ => ⟨rfl, rfl⟩, rfl, fun _ _ => id, List.prefix_append _ _, fun _ _ => rfl⟩
  | addStatic m =>
    obtain rfl := h
    exact ⟨fun _ _ => ⟨rfl, rfl⟩, rfl, fun _ _ => id, List.prefix_rfl, fun _ _ => rfl⟩
  | addProperty name type getter =>
    obtain ⟨hnew, rfl⟩ := h
    refine ⟨fun _ _ => ⟨rfl, rfl⟩, rfl, fun n p hp => ?_, List.prefix_rfl, fun _ _ => rfl⟩
    have hne : n ≠ name := fun heq => Bool.eq_false_iff.mp hnew (Table.has_iff.mpr ⟨p, heq ▸ hp⟩)
    exact (Table.find?_put_of_ne _ _ hne).trans hp
  | addMethod m =>
    obtain ⟨-, rfl⟩ := h
    refine ⟨fun n hn => ⟨Table.find?_put_of_ne _ _ fun heq => hn ?_, rfl⟩, rfl, fun _ _ => id, List.prefix_rfl,
      fun _ _ => rfl⟩
    exact heq ▸ List.mem_cons_self
  | replaceBody m =>
    obtain ⟨-, rfl⟩ := h
    refine ⟨fun n hn => ?_, rfl, fun _ _ => id, List.prefix_rfl, fun _ _ => rfl⟩
    have hne : n ≠ m.name := fun heq => hn (heq ▸ List.mem_cons_self)
    refine ⟨Table.find?_put_of_ne _ _ hne, ?_⟩
    show (c.opaqueBodies.drop m.name).find? n = _
    rw [Table.find?_drop, if_neg hne]
  | redirectInitializer property setter =>
    obtain ⟨is, hredirect, rfl⟩ := h
    refine ⟨fun _ _ => ⟨rfl, rfl⟩, rfl, fun _ _ => id, List.prefix_rfl, fun keep hkeep => ?_⟩
    exact filter_redirect (fun i hi heq => hkeep i hi (heq ▸ List.mem_cons_self)) hredirect

theorem Keeps.cons {c₁ : ClassImage} {e : PatchEdit} {es : List PatchEdit} (h : Keeps [e] c c₁) (h' : Keeps es c₁ c') :
    Keeps (e :: es) c c' := by
  have hsplit {β : Type} (f : PatchEdit → Option β) : (e :: es).filterMap f = [e].filterMap f ++ es.filterMap f := by
    rw [← List.filterMap_append]
    rfl
  refine ⟨fun n hn => ?_, h'.externs.trans h.externs, fun n p hp => h'.properties n p (h.properties n p hp),
    h.fields.trans h'.fields, fun keep hkeep => ?_⟩
  · rw [hsplit, List.map_append, List.mem_append, not_or] at hn
    obtain ⟨hmethod, hopaque⟩ := h.bodies n hn.1
    obtain ⟨hmethod', hopaque'⟩ := h'.bodies n hn.2
    exact ⟨hmethod'.trans hmethod, hopaque'.trans hopaque⟩
  · simp only [hsplit, List.mem_append, not_or] at hkeep
    exact (h'.initializers keep fun i hi => (hkeep i hi).2).trans (h.initializers keep fun i hi => (hkeep i hi).1)

/-- What edits leave as it is. -/
theorem keeps_forM {u : Unit} : ∀ {es : List PatchEdit} {c c' : ClassImage},
    es.forM applyEdit c = .ok u c' → Keeps es c c'
  | [], c, c', h => by
    cases h
    exact .refl c
  | e :: es, c, c', h => by
    obtain ⟨_, c₁, h₁, h⟩ := bind_eq_ok.mp h
    exact (edited_of_applyEdit h₁).keeps.cons (keeps_forM h)

theorem initMethod_edits {u : Unit} : ∀ {es : List PatchEdit} {c c' : ClassImage}, es.forM applyEdit c = .ok u c' →
    c'.initMethod = c.initMethod
  | [], c, c', h => by
    cases h
    rfl
  | e :: es, c, c', h => by
    obtain ⟨_, c₁, h₁, h⟩ := bind_eq_ok.mp h
    refine (initMethod_edits h).trans ?_
    have hedited := edited_of_applyEdit h₁
    cases e with
    | addStatic m =>
      cases hedited
      rfl
    | addField | addProperty | addMethod | replaceBody =>
      obtain ⟨-, rfl⟩ := hedited
      rfl
    | redirectInitializer property setter =>
      obtain ⟨is, -, rfl⟩ := hedited
      rfl

/-- The name of the init method comes from the conventions. -/
theorem initMethod_ofPatched {d : ClassDecl} {conventions : Conventions} {module : PatchModule}
    (h : ofPatched d conventions module = .ok c) : c.initMethod = conventions.initMethod := by
  obtain ⟨base, hbase, hrun⟩ := forM_of_ofPatched h
  exact (initMethod_edits hrun).trans (initMethod_foldlM hbase)

/-- What edits bring in. -/
structure Brings (es : List PatchEdit) (c c' : ClassImage) : Prop where
  fields : ∀ n ∈ es.filterMap PatchEdit.field?, n ∈ c'.fields.map Prod.fst
  properties : ∀ name type getter, .addProperty name type getter ∈ es →
    c'.properties.find? name = some ⟨type, some getter, none⟩
  known : ∀ n, c'.Known n ↔ n ∈ (es.filterMap PatchEdit.writtenMethod?).map Prod.snd ∨ c.Known n
  /-- What is replaced was there, or has been brought in before. -/
  replaced : ∀ n, (false, n) ∈ es.filterMap PatchEdit.writtenMethod? →
    (true, n) ∈ es.filterMap PatchEdit.writtenMethod? ∨ c.Known n

/-- What an edit replaces was there. -/
theorem Edited.replaced {e : PatchEdit} (h : Edited e c c') {n : String} (hn : e.writtenMethod? = some (false, n)) :
    c.Known n := by
  cases e with
  | replaceBody m =>
    cases hn
    exact h.1
  | addField | addStatic | addProperty | addMethod | redirectInitializer => cases hn

/-- Edits that are made bring in what they name. -/
theorem brings_forM {u : Unit} : ∀ {es : List PatchEdit} {c c' : ClassImage}, es.forM applyEdit c = .ok u c' →
    Brings es c c'
  | [], c, c', h => by
    cases h
    exact ⟨nofun, nofun, fun _ => ⟨Or.inr, fun h => h.resolve_left List.not_mem_nil⟩, nofun⟩
  | e :: es, c, c', h => by
    obtain ⟨_, c₁, h₁, h⟩ := bind_eq_ok.mp h
    have h₁ := edited_of_applyEdit h₁
    have hrest := brings_forM h
    have hkeeps := keeps_forM h
    have hsplit {β : Type} (f : PatchEdit → Option β) : (e :: es).filterMap f = (f e).toList ++ es.filterMap f :=
      filterMap_cons_toList ..
    refine ⟨fun n hn => ?_, fun name type getter hadd => ?_, fun n => ?_, fun n hn => ?_⟩
    · rw [hsplit] at hn
      obtain hn | hn := List.mem_append.mp hn
      · refine (hkeeps.fields.map Prod.fst).subset ?_
        rw [fields_edited h₁]
        exact List.mem_append_right _ hn
      · exact hrest.fields n hn
    · obtain rfl | hadd := List.mem_cons.mp hadd
      · obtain ⟨-, rfl⟩ := h₁
        exact hkeeps.properties _ _ (Table.find?_put_self _ _ _)
      · exact hrest.properties name type getter hadd
    · rw [hrest.known, known_edited h₁, hsplit, List.map_append, List.mem_append]
      cases e.writtenMethod? <;> simp [or_left_comm, or_assoc]
    · rw [hsplit] at hn ⊢
      obtain hn | hn := List.mem_append.mp hn
      · exact Or.inr (h₁.replaced (Option.mem_toList.mp hn))
      · obtain hnew | hknown := hrest.replaced n hn
        · exact Or.inl (List.mem_append_right _ hnew)
        · obtain hwritten | hknown := (known_edited h₁ n).mp hknown
          · obtain ⟨⟨new, _⟩, hentry, rfl⟩ := Option.map_eq_some_iff.mp (Option.mem_toList.mp hwritten)
            cases new with
            | true => exact Or.inl (List.mem_append_left _ (Option.mem_toList.mpr hentry))
            | false => exact Or.inr (h₁.replaced hentry)
          · exact Or.inr hknown

end ClassImage

end Reactive
