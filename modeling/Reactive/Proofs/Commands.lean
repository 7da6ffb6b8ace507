import Reactive.Proofs.Staging

/-!
# Reactive.Proofs.Commands — what the commands of a class are like

* `CommandModel.Fits`: a command is one of a declared method, and named after it.
* `Drafting.yields_commands`: the names of the properties of commands were free.
-/

namespace Reactive

/-- The property that enables a command is in the table, and its changes are announced. -/
def Enablement.Bound (table : MemberTable) (e : Enablement) : Prop :=
  ∃ i, table[e.property]? = some i ∧ i.name = e.name ∧ i.role ≠ .plain

/-- A command is one of a declared method, and has its names from it. -/
structure CommandModel.Fits (c : ClassDecl) (k : CommandModel) : Prop where
  declared : c.HasMethod k.method
  property : k.property = Naming.command k.method
  slot : k.slot = Naming.slot k.property

namespace Drafting

variable {c : ClassDecl}

theorem yields_bindEnablement (command : String) (a : Annotation) (name : String) (d : Draft) :
    Yields (bindEnablement command a name) d fun r _ => ∀ e, r = some e → e.Bound d.members := by
  refine Yields.bind (Q := fun d₀ d' => d₀ = d ∧ d' = d) ⟨rfl, rfl⟩ ?_
  rintro _ d ⟨rfl, rfl⟩
  dsimp only
  split
  · rename_i id info hid hinfo
    split
    · exact yields_reject
    · split
      · exact yields_reject
      · rename_i hrole
        rintro e ⟨⟩
        obtain ⟨i, hi, hname⟩ := MemberTable.name_of_resolve? hid
        obtain ⟨-, hindex⟩ := List.findIdx?_eq_some_iff_findIdx_eq.mp hid
        rw [MemberTable.find?, List.find?_eq_getElem?_findIdx, hindex, hi] at hinfo
        cases hinfo
        exact ⟨info, hi, hname, hrole⟩
  · exact yields_reject

theorem yields_command {m : MemberDecl} (a : Annotation) (hm : m ∈ c.members) (d : Draft) :
    Yields (command m a) d fun r _ => ∀ k, r = some k → k.Fits c ∧ k.property ∉ d.taken.map Prod.fst ∧
      ∀ e, k.enablement = some e → e.Bound d.members := by
  unfold command
  split
  · exact yields_reject
  · rename_i decl hdecl
    split
    · exact yields_reject
    · refine (yields_claim _ m.nameSpan d).bind fun earlier d₁ hclaim => ?_
      split
      · exact yields_reject
      · have hfree := (hclaim.2 rfl).1
        have hfits (returned : Bool × Option TypeRef) (enablement : Option Enablement) : CommandModel.Fits c
            ⟨m.name, Naming.command m.name, Naming.slot (Naming.command m.name), decl.params.head?.map Param.type,
              returned.2, returned.1, enablement, m.nameSpan⟩ := ⟨⟨m, hm, rfl, decl, hdecl⟩, rfl, rfl⟩
        have hmembers := (hclaim.2 rfl).2.2
        refine (yields_claim _ m.nameSpan d₁).bind fun existing d₂ hclaim => ?_
        split
        · exact yields_reject
        · have hmembers : d₂.members = d.members := (hclaim.2 rfl).2.2.trans hmembers
          dsimp only
          split
          · refine (yields_bindEnablement _ a _ d₂).bind fun enablement d₃ hbound => ?_
            rintro k ⟨⟩
            exact ⟨hfits _ _, hfree, hmembers ▸ hbound⟩
          · rintro k ⟨⟩
            exact ⟨hfits _ _, hfree, fun _ he => by cases he⟩

/-- Commands are of declared methods, no property of a command was known before, and one that enables a command was. -/
theorem yields_commands : ∀ (records : List (MemberDecl × List Annotation)) (d : Draft),
    (∀ m ∈ records.map Prod.fst, m ∈ c.members) →
      Yields (commands records) d fun ks _ => ∀ k ∈ ks, k.Fits c ∧ k.property ∉ d.taken.map Prod.fst ∧
        ∀ e, k.enablement = some e → e.Bound d.members
  | [], _, _ => nofun
  | (m, annotations) :: rest, d, hmem => by
    have hmem' : ∀ n ∈ rest.map Prod.fst, n ∈ c.members := fun n hn => hmem n (List.mem_cons_of_mem _ hn)
    have hrest (d₁ : Draft) (h₁ : d.Noted d₁) : Yields (commands rest) d₁ fun ks _ =>
        ∀ k ∈ ks, k.Fits c ∧ k.property ∉ d.taken.map Prod.fst ∧ ∀ e, k.enablement = some e → e.Bound d.members :=
      (yields_commands rest d₁ hmem').imp fun ks _ h k hk =>
        ⟨(h k hk).1, fun htaken => (h k hk).2.1 ((h₁.taken.map Prod.fst).subset htaken), h₁.members ▸ (h k hk).2.2⟩
    unfold commands
    split
    · exact hrest d (.refl d)
    · rename_i a _
      refine ((yields_command a (hmem m List.mem_cons_self) d).and (Q := fun _ d₁ => d.Noted d₁)
        (notes_command m a d)).bind fun result d₁ hresult => ?_
      obtain ⟨hk, h₁⟩ := hresult
      split
      · refine (hrest d₁ h₁).bind fun ks _ hks => ?_
        exact List.forall_mem_cons.mpr ⟨hk _ rfl, hks⟩
      · exact hrest d₁ h₁

end Drafting

end Reactive
