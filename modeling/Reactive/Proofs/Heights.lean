import Reactive.Proofs.Building

/-!
# Reactive.Proofs.Heights — how many operands there are at a place of a method

* `Instruction.leadsTo`: where an instruction leads, and with how many operands.
* `CompiledMethod.Passes`: some way through a method comes to a place with a number of operands.
* `CompiledMethod.StackSafe`: that number is the same on every way and always enough; `JumpsForward` and `LocalsInRange`
  are about jumps and locals.
* `MethodBuilder.Balanced`: the numbers of operands at the places and labels of a method that is being built;
  `Spans n k`: a piece of a method that turns `n` operands into `k`.
-/

namespace Reactive

namespace Instruction

/-- The number of operands that an instruction needs. -/
def takes : Instruction → Nat
  | storeLocal _ | storeField _ | getProperty _ | callStatic _ | unary _ | dup | pop | jumpIfFalse _ | jumpIfTrue _
  | jumpIfNotNull _ | addLocaleProperty .. | ret => 1
  | binary _ => 2
  | callMethod _ argc => argc.toNat + 1
  | callHook _ argc | callHost _ argc => argc.toNat
  | _ => 0

/-- The number of operands that it puts in their place if the next instruction follows. -/
def gives : Instruction → Nat
  | pushNull | pushBool _ | pushInt _ | pushFloat _ | pushString _ | pushDefault _ | loadThis | loadArg _ | loadLocal _
  | loadField _ | getProperty _ | callMethod .. | callStatic _ | callHost .. | unary _ | binary _ | newCommand _
  | registerLocale .. => 1
  | dup => 2
  | _ => 0

/-- The number of operands that it leaves in their place if it jumps. -/
def carries : Instruction → Nat
  | jumpIfNotNull _ => 1
  | _ => 0

/-- The local that it reads or writes. -/
def local? : Instruction → Option UInt16
  | loadLocal index | storeLocal index => some index
  | _ => none

/-- The places that an instruction may lead to, with the numbers of operands there. -/
def leadsTo (i : Instruction) (place height : Nat) : List (Nat × Nat) :=
  (if i.isTerminator then [] else [(place + 1, height - i.takes + i.gives)])
    ++ (i.target?.map fun t => (t.toNat, height - i.takes + i.carries)).toList

variable {i : Instruction} {t u : UInt64}

@[simp] theorem takes_withTarget : (i.withTarget u).takes = i.takes := by cases i <;> rfl

@[simp] theorem gives_withTarget : (i.withTarget u).gives = i.gives := by cases i <;> rfl

@[simp] theorem carries_withTarget : (i.withTarget u).carries = i.carries := by cases i <;> rfl

@[simp] theorem local?_withTarget : (i.withTarget u).local? = i.local? := by cases i <;> rfl

@[simp] theorem isTerminator_withTarget : (i.withTarget u).isTerminator = i.isTerminator := by cases i <;> rfl

theorem target?_withTarget (h : i.target? = some t) : (i.withTarget u).target? = some u := by cases i <;> cases h <;> rfl

end Instruction

namespace CompiledMethod

variable (m : CompiledMethod)

/-- Some way through the method comes to a place with a number of operands. -/
inductive Passes : Nat → Nat → Prop
  | start : Passes 0 0
  | step {place height place' height' : Nat} {i : Instruction} (before : Passes place height)
    (fetched : m.code[place]? = some i) (leads : (place', height') ∈ i.leadsTo place height) : Passes place' height'

/-- No way through the method runs out of operands or leaves its instructions. -/
structure StackSafe : Prop where
  /-- A jump leads to an instruction or behind the last one. -/
  targets : ∀ i ∈ m.code, ∀ t, i.target? = some t → t.toNat ≤ m.code.length
  /-- Every way to a place comes with as many operands. -/
  fixed : ∀ place height height', m.Passes place height → m.Passes place height' → height = height'
  enough : ∀ place height i, m.Passes place height → m.code[place]? = some i → i.takes ≤ height
  /-- A value is returned when it is the only operand. -/
  returns : ∀ place height, m.Passes place height → m.code[place]? = some .ret → height = 1

/-- A jump leads further on. -/
def JumpsForward : Prop :=
  ∀ (place : Nat) (i : Instruction) (t : UInt64), m.code[place]? = some i → i.target? = some t → place < t.toNat

/-- The locals that are read and written are there. -/
def LocalsInRange : Prop := ∀ i ∈ m.code, ∀ index, i.local? = some index → index.toNat < m.localCount.toNat

variable {m}

theorem JumpsForward.lt_of_leadsTo (h : m.JumpsForward) {place height place' height' : Nat} {i : Instruction}
    (fetched : m.code[place]? = some i) (leads : (place', height') ∈ i.leadsTo place height) : place < place' := by
  obtain hfalls | hjumps := List.mem_append.mp leads
  · split at hfalls
    · cases hfalls
    · cases List.mem_singleton.mp hfalls
      exact Nat.lt_succ_self place
  · obtain ⟨t, ht, heq⟩ := Option.map_eq_some_iff.mp (Option.mem_toList.mp hjumps)
    cases heq
    exact h place i t fetched ht

end CompiledMethod

namespace MethodBuilder

/-! ### A method that is being built -/

/-- The numbers of operands at the places of a method that is being built, the next one included, and at its labels. -/
structure Balanced (b : MethodBuilder) (heights levels : List Nat) : Prop where
  places : heights.length = b.position + 1
  labels : levels.length = b.labels.length
  /-- Every instruction has its operands, and leaves to the next one what that finds. -/
  fits : ∀ p i, b.code[p]? = some i → ∃ h, heights[p]? = some h ∧ i.takes ≤ h ∧ (i = .ret → h = 1) ∧
    (i.isTerminator = false → heights[p + 1]? = some (h - i.takes + i.gives))
  /-- A jump goes to a label that is further on, and leaves to it what that finds. -/
  jumps : ∀ p i t, b.code[p]? = some i → i.target? = some t → ∃ label h, t = UInt64.ofNat label ∧ heights[p]? = some h ∧
    levels[label]? = some (h - i.takes + i.carries) ∧ ∀ q, b.Bound label q → p < q
  bound : ∀ label q, b.Bound label q → q ≤ b.position ∧ heights[q]? = levels[label]?
  locals : ∀ i ∈ b.code, ∀ index, i.local? = some index → index.toNat < b.locals.length

/-- A later stage of a balanced method: the numbers that were known stay. -/
structure Onward (b : MethodBuilder) (heights levels : List Nat) (k : Nat) (b' : MethodBuilder)
    (heights' levels' : List Nat) : Prop where
  balanced : b'.Balanced heights' levels'
  heights : heights <+: heights'
  levels : levels <+: levels'
  /-- The number of operands at the next place. -/
  top : heights'[b'.position]? = some k

/-- A piece of a method that finds `n` operands and leaves `k`. -/
def Spans (n k : Nat) (b b' : MethodBuilder) : Prop :=
  ∀ heights levels, b.Balanced heights levels → heights[b.position]? = some n →
    ∃ heights' levels', Onward b heights levels k b' heights' levels'

variable {b b₁ b₂ b' : MethodBuilder} {heights levels : List Nat} {n k l : Nat} {i : Instruction}

theorem Spans.refl (b : MethodBuilder) (n : Nat) : Spans n n b b := fun heights levels hb htop =>
  ⟨heights, levels, hb, List.prefix_rfl, List.prefix_rfl, htop⟩

theorem Spans.trans (h : Spans n k b b₁) (h' : Spans k l b₁ b₂) : Spans n l b b₂ := by
  intro heights levels hb htop
  obtain ⟨heights₁, levels₁, h₁⟩ := h heights levels hb htop
  obtain ⟨heights₂, levels₂, h₂⟩ := h' heights₁ levels₁ h₁.balanced h₁.top
  exact ⟨heights₂, levels₂, h₂.balanced, h₁.heights.trans h₂.heights, h₁.levels.trans h₂.levels, h₂.top⟩

theorem Balanced.onward (hb : b.Balanced heights levels) (htop : heights[b.position]? = some n) :
    Onward b heights levels n b heights levels := ⟨hb, List.prefix_rfl, List.prefix_rfl, htop⟩

theorem Onward.trans {heights₁ levels₁ heights₂ levels₂ : List Nat} (h : Onward b heights levels k b₁ heights₁ levels₁)
    (h' : Onward b₁ heights₁ levels₁ l b₂ heights₂ levels₂) : Onward b heights levels l b₂ heights₂ levels₂ :=
  ⟨h'.balanced, h.heights.trans h'.heights, h.levels.trans h'.levels, h'.top⟩

/-! ### Single steps -/

theorem getElem?_push_code {p : Nat} {j : Instruction} (h : (b.push i).code[p]? = some j) :
    b.code[p]? = some j ∨ (p = b.position ∧ j = i) := by
  rw [push, List.getElem?_append] at h
  split at h
  · exact Or.inl h
  · have hp : p - b.code.length = 0 := by
      have := (List.getElem?_eq_some_iff.mp h).1
      simp only [List.length_singleton] at this
      omega
    rw [hp] at h
    cases h
    exact Or.inr ⟨by rw [position]; omega, rfl⟩

/-- An instruction may be added that has its operands.  If it does not lead to the next place, that may be found with any
number of operands. -/
theorem Balanced.push (hb : b.Balanced heights levels) (htop : heights[b.position]? = some n) (htakes : i.takes ≤ n)
    (hret : i = .ret → n = 1) (hfalls : i.isTerminator = false → k = n - i.takes + i.gives)
    (hjumps : ∀ t, i.target? = some t → ∃ label, t = UInt64.ofNat label ∧ levels[label]? = some (n - i.takes + i.carries) ∧
      b.Open label)
    (hlocals : ∀ index, i.local? = some index → index.toNat < b.locals.length) :
    Onward b heights levels k (b.push i) (heights ++ [k]) levels := by
  have hold {p h : Nat} (hp : heights[p]? = some h) : (heights ++ [k])[p]? = some h :=
    getElem?_of_leading (List.prefix_append _ _) hp
  have hnext : (heights ++ [k])[b.position + 1]? = some k := by rw [← hb.places, List.getElem?_concat_length]
  refine ⟨⟨?_, hb.labels, fun p j hj => ?_, fun p j t hj ht => ?_, fun label q hq => ?_, fun j hj index hindex => ?_⟩,
    List.prefix_append _ _, List.prefix_rfl, by rw [position_push, hnext]⟩
  · rw [List.length_append, hb.places, position_push, List.length_singleton]
  · obtain hj | ⟨rfl, rfl⟩ := getElem?_push_code hj
    · obtain ⟨h, hp, hle, hone, hnext⟩ := hb.fits p j hj
      exact ⟨h, hold hp, hle, hone, fun hterm => hold (hnext hterm)⟩
    · exact ⟨n, hold htop, htakes, hret, fun hterm => hfalls hterm ▸ hnext⟩
  · obtain hj | ⟨rfl, rfl⟩ := getElem?_push_code hj
    · obtain ⟨label, h, rfl, hp, hlabel, hlater⟩ := hb.jumps p j t hj ht
      exact ⟨label, h, rfl, hold hp, hlabel, hlater⟩
    · obtain ⟨label, rfl, hlabel, hopen⟩ := hjumps t ht
      refine ⟨label, n, rfl, hold htop, hlabel, fun q hq => ?_⟩
      rw [Bound, labels_push, hopen] at hq
      cases hq
  · obtain ⟨hle, heq⟩ := hb.bound label q hq
    refine ⟨by rw [position_push]; omega, ?_⟩
    rw [List.getElem?_append_left (by rw [hb.places]; omega), heq]
  · obtain hj | hj := List.mem_append.mp hj
    · exact hb.locals j hj index hindex
    · exact hlocals index (List.mem_singleton.mp hj ▸ hindex)

/-- An instruction that goes on behind itself. -/
theorem spans_push (b : MethodBuilder) (i : Instruction) (htakes : i.takes ≤ n) (hnext : i.isTerminator = false)
    (htarget : i.target? = none) (hk : n - i.takes + i.gives = k) (hlocal : i.local? = none) :
    Spans n k b (b.push i) := by
  intro heights levels hb htop
  refine ⟨_, _, hb.push htop htakes ?_ (fun _ => hk.symm) ?_ ?_⟩
  · rintro rfl
    cases hnext
  · rw [htarget]
    exact nofun
  · rw [hlocal]
    exact nofun

theorem spans_storeLocal {index : UInt16} (h : index.toNat < b.locals.length) :
    Spans (n + 1) n b (b.push (.storeLocal index)) := by
  intro heights levels hb htop
  exact ⟨_, _, hb.push htop (Nat.le_add_left 1 n) nofun (fun _ => rfl) nofun (by rintro _ ⟨⟩; exact h)⟩

theorem spans_loadLocal {index : UInt16} (h : index.toNat < b.locals.length) :
    Spans n (n + 1) b (b.push (.loadLocal index)) := by
  intro heights levels hb htop
  exact ⟨_, _, hb.push htop (Nat.zero_le n) nofun (fun _ => rfl) nofun (by rintro _ ⟨⟩; exact h)⟩

/-- Behind a return the next place may be found with any number of operands. -/
theorem spans_ret (b : MethodBuilder) (k : Nat) : Spans 1 k b (b.push .ret) := by
  intro heights levels hb htop
  exact ⟨_, _, hb.push htop (Nat.le_refl 1) (fun _ => rfl) nofun nofun nofun⟩

theorem spans_retVoid (b : MethodBuilder) (n k : Nat) : Spans n k b (b.push .retVoid) := by
  intro heights levels hb htop
  exact ⟨_, _, hb.push htop (Nat.zero_le n) nofun nofun nofun nofun⟩

/-- A jump to a label that is not bound yet, and that is found with what the jump leaves to it. -/
theorem Balanced.pushJump {jump : UInt64 → Instruction} {label : Nat} (hb : b.Balanced heights levels)
    (htop : heights[b.position]? = some n) (hjump : IsJump jump) (hopen : b.Open label)
    (htakes : (jump (UInt64.ofNat label)).takes ≤ n)
    (hlabel : levels[label]? = some (n - (jump (UInt64.ofNat label)).takes + (jump (UInt64.ofNat label)).carries))
    (hfalls : (jump (UInt64.ofNat label)).isTerminator = false → k = n - (jump (UInt64.ofNat label)).takes +
      (jump (UInt64.ofNat label)).gives) :
    Onward b heights levels k (b.pushJump jump label) (heights ++ [k]) levels := by
  refine hb.push htop htakes (fun hret => ?_) hfalls (fun t ht => ?_) (fun index hindex => ?_)
  · have htarget := (hjump (UInt64.ofNat label) 0).1
    rw [hret] at htarget
    cases htarget
  · rw [(hjump _ 0).1] at ht
    cases ht
    exact ⟨label, rfl, hlabel, hopen⟩
  · have htarget := (hjump (UInt64.ofNat label) 0).1
    generalize jump (UInt64.ofNat label) = j at htarget hindex
    cases j <;> cases htarget <;> cases hindex

/-- A new label may be found with any number of operands. -/
theorem Balanced.newLabel (hb : b.Balanced heights levels) (htop : heights[b.position]? = some n) (level : Nat) :
    Onward b heights levels n b.newLabel.2 heights (levels ++ [level]) := by
  have hold {label h : Nat} (hlabel : levels[label]? = some h) : (levels ++ [level])[label]? = some h :=
    getElem?_of_leading (List.prefix_append _ _) hlabel
  have hbound {label q : Nat} (hq : b.newLabel.2.Bound label q) : b.Bound label q := by
    rw [Bound, MethodBuilder.newLabel, List.getElem?_append] at hq
    split at hq
    · exact hq
    · obtain ⟨_, hat⟩ := List.getElem?_eq_some_iff.mp hq
      simp at hat
  refine ⟨⟨hb.places, ?_, hb.fits, fun p j t hj ht => ?_, fun label q hq => ?_, hb.locals⟩, List.prefix_rfl,
    List.prefix_append _ _, htop⟩
  · rw [List.length_append, hb.labels, length_newLabel, List.length_singleton]
  · obtain ⟨label, h, rfl, hp, hlabel, hlater⟩ := hb.jumps p j t hj ht
    exact ⟨label, h, rfl, hp, hold hlabel, fun q hq => hlater q (hbound hq)⟩
  · obtain ⟨hle, heq⟩ := hb.bound label q (hbound hq)
    have hlt : label < levels.length := by
      rw [hb.labels]
      exact (List.getElem?_eq_some_iff.mp (hbound hq)).1
    exact ⟨hle, by rw [heq, List.getElem?_append_left hlt]⟩

/-- A label may be bound to the next place if that is found with as many operands. -/
theorem Balanced.bind {label : Nat} (hb : b.Balanced heights levels) (htop : heights[b.position]? = some n)
    (hopen : b.Open label) (hlabel : levels[label]? = some n) :
    Onward b heights levels n (b.bind label) heights levels := by
  refine ⟨⟨hb.places, ?_, hb.fits, fun p j t hj ht => ?_, fun other q hq => ?_, hb.locals⟩, List.prefix_rfl,
    List.prefix_rfl, htop⟩
  · rw [hb.labels, length_bind]
  · obtain ⟨other, h, rfl, hp, hother, hlater⟩ := hb.jumps p j t hj ht
    refine ⟨other, h, rfl, hp, hother, fun q hq => ?_⟩
    by_cases hne : label = other
    · subst hne
      have hq' := bound_bind hopen
      rw [Bound] at hq hq'
      rw [hq'] at hq
      cases hq
      exact (List.getElem?_eq_some_iff.mp hj).1
    · exact hlater q ((bind_bound_of_ne hne).mp hq)
  · by_cases hne : label = other
    · subst hne
      have hq' := bound_bind hopen
      rw [Bound] at hq hq'
      rw [hq'] at hq
      cases hq
      exact ⟨Nat.le_refl _, htop.trans hlabel.symm⟩
    · exact hb.bound other q ((bind_bound_of_ne hne).mp hq)

/-- A local may be asked for. -/
theorem spans_allocate (b : MethodBuilder) (name : String) (n : Nat) : Spans n n b (b.allocate name).2 := by
  intro heights levels hb htop
  obtain ⟨i, -, heq⟩ | ⟨-, heq⟩ := allocate_cases b name
  · rw [heq]
    exact ⟨_, _, hb.onward htop⟩
  · rw [heq]
    refine ⟨heights, levels, ⟨hb.places, hb.labels, hb.fits, hb.jumps, hb.bound, fun j hj index hindex => ?_⟩,
      List.prefix_rfl, List.prefix_rfl, htop⟩
    have hlt := hb.locals j hj index hindex
    rw [List.length_append]
    omega

theorem toNat_local_lt {name : String} {index : UInt16} (h : b.local? name = some index) :
    index.toNat < b.locals.length := by
  obtain ⟨j, hj, rfl⟩ := Option.map_eq_some_iff.mp h
  obtain ⟨hlt, -⟩ := List.findIdx?_eq_some_iff_getElem.mp hj
  exact Nat.lt_of_le_of_lt (by rw [UInt16.toNat_ofNat']; exact Nat.mod_le _ _) hlt

/-- A local that was asked for is there. -/
theorem toNat_allocate_lt (b : MethodBuilder) (name : String) :
    (b.allocate name).1.toNat < (b.allocate name).2.locals.length := by
  obtain ⟨i, hi, heq⟩ | ⟨-, heq⟩ := allocate_cases b name
  · rw [heq]
    exact toNat_local_lt hi
  · rw [heq, List.length_append]
    exact Nat.lt_of_le_of_lt (by rw [UInt16.toNat_ofNat']; exact Nat.mod_le _ _) (Nat.lt_succ_self _)

/-! ### The built method -/

/-- An instruction of a built method is one that was added, with a place for its label. -/
theorem fetched_of_build {method : CompiledMethod} {j : Instruction} {p : Nat} (h : b.build = .ok method)
    (hj : method.code[p]? = some j) : ∃ i, b.code[p]? = some i ∧ resolve b.labels i = .ok j := by
  have hlt : p < b.code.length := by
    rw [← length_of_build h]
    exact (List.getElem?_eq_some_iff.mp hj).1
  obtain ⟨r, hr, hcode⟩ := mapM_resolve (build_eq_ok h).2.2.2 (List.getElem?_eq_getElem hlt)
  rw [hj] at hcode
  cases hcode
  exact ⟨b.code[p], List.getElem?_eq_getElem hlt, hr⟩

/-- A label in a jump is put in its place, and nothing else is changed. -/
theorem resolve_eq_ok {labels : List (Option Nat)} {j : Instruction} (h : resolve labels i = .ok j) :
    (i.target? = none ∧ j = i) ∨
      ∃ t place, i.target? = some t ∧ labels[t.toNat]? = some (some place) ∧ j = i.withTarget (UInt64.ofNat place) := by
  unfold resolve at h
  cases ht : i.target? with
  | none =>
    rw [ht] at h
    cases h
    exact Or.inl ⟨rfl, rfl⟩
  | some t =>
    rw [ht] at h
    dsimp only at h
    split at h
    · rename_i place hplace
      cases h
      exact Or.inr ⟨t, place, rfl, hplace, rfl⟩
    · cases h

/-- What is known of an instruction of a built method that stands at a place found with a number of operands. -/
structure Suits (m : CompiledMethod) (heights : List Nat) (locals p h : Nat) (j : Instruction) : Prop where
  height : heights[p]? = some h
  enough : j.takes ≤ h
  returns : j = .ret → h = 1
  leads : ∀ place height, (place, height) ∈ j.leadsTo p h → heights[place]? = some height
  targets : ∀ t, j.target? = some t → p < t.toNat ∧ t.toNat ≤ m.code.length
  locals : ∀ index, j.local? = some index → index.toNat < locals

theorem Balanced.suits {m : CompiledMethod} (hb : b.Balanced heights levels) (hbuilt : Built b m) {p : Nat}
    {j : Instruction} (hj : m.code[p]? = some j) : ∃ h, Suits m heights b.locals.length p h j := by
  obtain ⟨i, hi, hresolve⟩ := fetched_of_build hbuilt.build hj
  obtain ⟨h, hp, htakes, hret, hfalls⟩ := hb.fits p i hi
  have hlocals := hb.locals i (List.mem_of_getElem? hi)
  have hnext {place height : Nat} (hin : (place, height) ∈ if i.isTerminator then [] else [(p + 1, h - i.takes + i.gives)]) :
      heights[place]? = some height := by
    split at hin
    · cases hin
    · rename_i hterm
      cases List.mem_singleton.mp hin
      exact hfalls (by simpa using hterm)
  obtain ⟨hnone, rfl⟩ | ⟨t, place, ht, hplace, rfl⟩ := resolve_eq_ok hresolve
  · refine ⟨h, hp, htakes, hret, fun place height hin => ?_, fun t ht => ?_, hlocals⟩
    · rw [Instruction.leadsTo, hnone] at hin
      exact hnext (by simpa using hin)
    · rw [hnone] at ht
      cases ht
  · obtain ⟨label, h', rfl, hp', hlevel, hlater⟩ := hb.jumps p i t hi ht
    cases hp.symm.trans hp'
    -- The number of the label is a machine word, and so is its place.
    have hlabel : (UInt64.ofNat label).toNat = label := by
      refine UInt64.toNat_ofNat_of_lt' (Nat.lt_of_lt_of_le ?_ hbuilt.labelSize)
      rw [← hb.labels]
      exact (List.getElem?_eq_some_iff.mp hlevel).1
    rw [hlabel] at hplace
    obtain ⟨hle, heq⟩ := hb.bound label place hplace
    have hword : (UInt64.ofNat place).toNat = place :=
      UInt64.toNat_ofNat_of_lt' (Nat.lt_of_le_of_lt hle hbuilt.codeSize)
    have htarget := Instruction.target?_withTarget (u := UInt64.ofNat place) ht
    refine ⟨h, hp, by simpa using htakes, fun heq => ?_, fun q height hin => ?_, fun u hu => ?_, by simpa using hlocals⟩
    · rw [heq] at htarget
      cases htarget
    · rw [Instruction.leadsTo, htarget] at hin
      obtain hin | hin := List.mem_append.mp hin
      · exact hnext (by simpa using hin)
      · simp only [Option.map_some, Option.toList_some, List.mem_singleton, Prod.mk.injEq, hword,
          Instruction.takes_withTarget, Instruction.carries_withTarget] at hin
        obtain ⟨rfl, rfl⟩ := hin
        exact heq.trans hlevel
    · rw [htarget] at hu
      cases hu
      rw [hword, length_of_build hbuilt.build]
      exact ⟨hlater place hplace, hle⟩

/-- Every way through a built method comes to a place with the number of operands there. -/
theorem Balanced.passes {m : CompiledMethod} (hb : b.Balanced heights levels) (hstart : heights[0]? = some 0)
    (hbuilt : Built b m) {place height : Nat} (h : m.Passes place height) : heights[place]? = some height := by
  induction h with
  | start => exact hstart
  | step _ fetched leads ih =>
    obtain ⟨h, hsuits⟩ := hb.suits hbuilt fetched
    cases ih.symm.trans hsuits.height
    exact hsuits.leads _ _ leads

/-- A method that is built of a balanced stage is safe. -/
theorem Balanced.safe {m : CompiledMethod} (hb : b.Balanced heights levels) (hstart : heights[0]? = some 0)
    (hbuilt : Built b m) :
    m.StackSafe ∧ m.JumpsForward ∧ (b.locals.length < UInt16.size → m.LocalsInRange) := by
  have hpasses {place height : Nat} (h : m.Passes place height) := hb.passes hstart hbuilt h
  refine ⟨⟨fun i hi t ht => ?_, fun place height height' h h' => ?_, fun place height i h hi => ?_,
    fun place height h hi => ?_⟩, fun place i t hi ht => ?_, fun hfew i hi index hindex => ?_⟩
  · obtain ⟨p, hp⟩ := List.mem_iff_getElem?.mp hi
    obtain ⟨_, hsuits⟩ := hb.suits hbuilt hp
    exact (hsuits.targets t ht).2
  · exact Option.some.inj ((hpasses h).symm.trans (hpasses h'))
  · obtain ⟨_, hsuits⟩ := hb.suits hbuilt hi
    cases (hpasses h).symm.trans hsuits.height
    exact hsuits.enough
  · obtain ⟨_, hsuits⟩ := hb.suits hbuilt hi
    cases (hpasses h).symm.trans hsuits.height
    exact hsuits.returns rfl
  · obtain ⟨_, hsuits⟩ := hb.suits hbuilt hi
    exact (hsuits.targets t ht).1
  · obtain ⟨p, hp⟩ := List.mem_iff_getElem?.mp hi
    obtain ⟨_, hsuits⟩ := hb.suits hbuilt hp
    rw [(build_eq_ok hbuilt.build).2.2.1, UInt16.toNat_ofNat_of_lt' hfew]
    exact hsuits.locals index hindex

theorem balanced_start (name : String) (paramCount : UInt16) : (start name paramCount).Balanced [0] [] := by
  refine ⟨rfl, rfl, ?_, ?_, ?_, nofun⟩
  · intro p i hi
    simp [start] at hi
  · intro p i t hi
    simp [start] at hi
  · intro label q hq
    simp [Bound, start] at hq

/-- A method that is built of one piece is safe. -/
theorem Spans.safe {m : CompiledMethod} {name : String} {paramCount : UInt16} (h : Spans 0 k (start name paramCount) b)
    (hbuilt : Built b m) : m.StackSafe ∧ m.JumpsForward ∧ (b.locals.length < UInt16.size → m.LocalsInRange) := by
  obtain ⟨heights, levels, hon⟩ := h [0] [] (balanced_start name paramCount) rfl
  exact hon.balanced.safe (getElem?_of_leading hon.heights rfl) hbuilt

end MethodBuilder

end Reactive
