import Mathlib.Logic.Basic

/-!
# Reactive.Proofs.Stateful — computations that change a state and may stop

The building of methods, the making of edits and the running of methods are all computations of one kind: they give a
value and a new state, or stop in some state.  Here is how a sequence of two of them ends, and what holds of a
computation each part of which ends well or stops with an error of one kind (`Meets`).
-/

namespace Reactive.Stateful

variable {ε σ α β : Type}

theorem bind_apply (x : EStateM ε σ α) (f : α → EStateM ε σ β) (s : σ) :
    (x >>= f) s = match x s with
      | .ok a s' => f a s'
      | .error e s' => .error e s' := rfl

theorem bind_of_ok {x : EStateM ε σ α} {f : α → EStateM ε σ β} {s s' : σ} {a : α} (h : x s = .ok a s') :
    (x >>= f) s = f a s' := by
  rw [bind_apply, h]

theorem bind_of_error {x : EStateM ε σ α} {f : α → EStateM ε σ β} {s s' : σ} {e : ε} (h : x s = .error e s') :
    (x >>= f) s = .error e s' := by
  rw [bind_apply, h]

theorem get_bind (f : σ → EStateM ε σ β) (s : σ) : (get >>= f) s = f s s := rfl

theorem discard_apply (x : EStateM ε σ α) (s : σ) :
    discard x s = match x s with
      | .ok _ s' => .ok .unit s'
      | .error e s' => .error e s' := rfl

/-- A computation whose value is not asked for. -/
theorem discard_bind (x : EStateM ε σ α) (f : PUnit → EStateM ε σ β) :
    (discard x >>= f) = x >>= fun _ => f .unit := by
  funext s
  rw [bind_apply, bind_apply, discard_apply]
  cases x s <;> rfl

theorem discard_eq_bind (x : EStateM ε σ α) : discard x = x >>= fun _ => pure .unit := by
  funext s
  rw [discard_apply, bind_apply]
  cases x s <;> rfl

/-- A sequence whose value is not asked for. -/
theorem discard_bind_right (x : EStateM ε σ α) (f : α → EStateM ε σ β) :
    discard (x >>= f) = x >>= fun a => discard (f a) := by
  funext s
  rw [discard_apply, bind_apply, bind_apply]
  cases x s <;> rfl

/-- A sequence ends well exactly if both parts do. -/
theorem bind_eq_ok {x : EStateM ε σ α} {f : α → EStateM ε σ β} {s s'' : σ} {b : β} :
    (x >>= f) s = .ok b s'' ↔ ∃ a s', x s = .ok a s' ∧ f a s' = .ok b s'' := by
  rw [bind_apply]
  constructor
  · intro h
    cases hx : x s with
    | ok a s' => rw [hx] at h; exact ⟨a, s', rfl, h⟩
    | error e s' => rw [hx] at h; cases h
  · rintro ⟨a, s', hx, hf⟩
    rw [hx]
    exact hf

theorem pure_eq_ok {a b : α} {s s' : σ} : (pure a : EStateM ε σ α) s = .ok b s' ↔ a = b ∧ s = s' := by
  constructor
  · intro h
    cases h
    exact ⟨rfl, rfl⟩
  · rintro ⟨rfl, rfl⟩
    rfl

theorem modify_eq_ok {f : σ → σ} {s s' : σ} {u : PUnit} :
    (modify f : EStateM ε σ PUnit) s = .ok u s' ↔ f s = s' := by
  constructor
  · intro h
    cases h
    rfl
  · rintro rfl
    rfl

theorem get_eq_ok {s s' a : σ} : (get : EStateM ε σ σ) s = .ok a s' ↔ s = a ∧ s = s' := by
  constructor
  · intro h
    cases h
    exact ⟨rfl, rfl⟩
  · rintro ⟨rfl, rfl⟩
    rfl

theorem set_eq_ok {t s s' : σ} {u : PUnit} : (set t : EStateM ε σ PUnit) s = .ok u s' ↔ t = s' := by
  constructor
  · intro h
    cases h
    rfl
  · rintro rfl
    rfl

theorem throw_ne_ok {e : ε} {s s' : σ} {a : α} : (throw e : EStateM ε σ α) s ≠ .ok a s' := by
  intro h
  cases h

/-- What is checked of the result of a computation without a state. -/
theorem exists_of_toOption_any {x : Except ε α} {check : α → Bool} (h : x.toOption.any check = true) :
    ∃ a, x = .ok a ∧ check a = true := by
  cases x with
  | ok a => exact ⟨a, rfl, h⟩
  | error e => cases h

/-! ### What holds at the end -/

/-- Whatever a computation gives if it ends well has a property. -/
def Ends (x : EStateM ε σ α) (s : σ) (P : α → σ → Prop) : Prop := ∀ a s', x s = .ok a s' → P a s'

variable {x : EStateM ε σ α} {s : σ} {P Q : α → σ → Prop}

theorem Ends.imp (h : Ends x s P) (hPQ : ∀ a s', P a s' → Q a s') : Ends x s Q := fun a s' hx => hPQ a s' (h a s' hx)

theorem ends_pure {a : α} (h : P a s) : Ends (pure a : EStateM ε σ α) s P := by
  rintro _ _ ⟨⟩
  exact h

theorem ends_throw {e : ε} : Ends (throw e : EStateM ε σ α) s P := nofun

theorem Ends.bind {f : α → EStateM ε σ β} {R : β → σ → Prop} (hx : Ends x s P)
    (hf : ∀ a s', P a s' → Ends (f a) s' R) : Ends (x >>= f) s R := by
  intro b s'' h
  obtain ⟨a, s', h₁, h₂⟩ := bind_eq_ok.mp h
  exact hf a s' (hx a s' h₁) b s'' h₂

theorem Ends.discard {R : PUnit → σ → Prop} (h : Ends x s fun _ s' => R .unit s') : Ends (discard x) s R := by
  intro u s' hx
  rw [discard_apply] at hx
  cases hrun : x s with
  | ok a s₁ =>
    rw [hrun] at hx
    cases hx
    exact h a s' hrun
  | error e s₁ =>
    rw [hrun] at hx
    cases hx

/-- What is seen of a state changes with every part of a list. -/
theorem ends_foldlM {τ : Type} {f : β → α → EStateM ε σ β} (view : σ → τ) (change : τ → α → τ)
    (hf : ∀ b a s, Ends (f b a) s fun _ s' => view s' = change (view s) a) :
    ∀ {xs : List α} {b : β} {s : σ}, Ends (xs.foldlM f b) s fun _ s' => view s' = xs.foldl change (view s)
  | [], _, _ => ends_pure rfl
  | x :: _, b, s => by
    rw [List.foldlM_cons]
    refine (hf b x s).bind fun b' s' hview => ?_
    rw [List.foldl_cons, ← hview]
    exact ends_foldlM view change hf

/-! ### What stays, however it ends -/

/-- The state in which a computation ends or stops. -/
def final : EStateM.Result ε σ α → σ
  | .ok _ s | .error _ s => s

/-- A computation ends well. -/
def isOk : EStateM.Result ε σ α → Bool
  | .ok .. => true
  | .error .. => false

theorem eq_ok_final {r : EStateM.Result ε σ PUnit} (h : isOk r = true) : r = .ok () (final r) := by
  cases r with
  | ok => rfl
  | error => cases h

theorem eq_ok_of_run' {x : EStateM ε σ α} {s : σ} {a : α} (h : x.run' s = some a) : x s = .ok a (final (x s)) := by
  unfold EStateM.run' EStateM.run at h
  cases hx : x s with
  | ok b s' =>
    rw [hx] at h
    cases h
    rfl
  | error e s' =>
    rw [hx] at h
    cases h

/-- A property of the state stays, whether the computation ends well or stops. -/
def Keeps (P : σ → Prop) (x : EStateM ε σ α) : Prop := ∀ s, P s → P (final (x s))

variable {I : σ → Prop}

theorem keeps_pure (a : α) : Keeps I (pure a : EStateM ε σ α) := fun _ h => h

theorem keeps_throw (e : ε) : Keeps I (throw e : EStateM ε σ α) := fun _ h => h

theorem keeps_get : Keeps I (get : EStateM ε σ σ) := fun _ h => h

theorem keeps_modify {f : σ → σ} (h : ∀ s, I s → I (f s)) : Keeps I (modify f : EStateM ε σ PUnit) := h

theorem Keeps.bind {f : α → EStateM ε σ β} (hx : Keeps I x) (hf : ∀ a, Keeps I (f a)) : Keeps I (x >>= f) := by
  intro s hs
  have h₁ := hx s hs
  rw [bind_apply]
  cases hrun : x s with
  | ok a s' =>
    rw [hrun] at h₁
    exact hf a s' h₁
  | error e s' =>
    rw [hrun] at h₁
    exact h₁

theorem Keeps.ends (hx : Keeps I x) (hs : I s) : Ends x s fun _ s' => I s' := by
  intro a s' hrun
  have h := hx s hs
  rw [hrun] at h
  exact h

theorem Keeps.discard (hx : Keeps I x) : Keeps I (discard x) := by
  intro s hs
  have h₁ := hx s hs
  rw [discard_apply]
  cases hrun : x s <;> rw [hrun] at h₁ <;> exact h₁

theorem keeps_forM {f : α → EStateM ε σ PUnit} : ∀ {xs : List α}, (∀ a ∈ xs, Keeps I (f a)) → Keeps I (xs.forM f)
  | [], _ => keeps_pure _
  | a :: _, h => (h a List.mem_cons_self).bind fun _ => keeps_forM fun b hb => h b (List.mem_cons_of_mem _ hb)

/-- Two lists, one after another. -/
theorem forM_append_eq_ok {f : α → EStateM ε σ PUnit} {u : PUnit} : ∀ {xs ys : List α} {s s'' : σ},
    (xs ++ ys).forM f s = .ok u s'' ↔ ∃ s', xs.forM f s = .ok u s' ∧ ys.forM f s' = .ok u s''
  | [], ys, s, s'' => by
    constructor
    · intro h
      exact ⟨s, rfl, h⟩
    · rintro ⟨s', h, h'⟩
      cases h
      exact h'
  | x :: xs, ys, s, s'' => by
    have hcons (zs : List α) (t : σ) : (x :: zs).forM f s = .ok u t ↔
        ∃ v s', f x s = .ok v s' ∧ zs.forM f s' = .ok u t := bind_eq_ok
    rw [List.cons_append, hcons]
    constructor
    · rintro ⟨v, s', hx, hxs⟩
      obtain ⟨s₁, h₁, h₂⟩ := forM_append_eq_ok.mp hxs
      exact ⟨s₁, (hcons _ _).mpr ⟨v, s', hx, h₁⟩, h₂⟩
    · rintro ⟨s₁, h₁, h₂⟩
      obtain ⟨v, s', hx, hxs⟩ := (hcons _ _).mp h₁
      exact ⟨v, s', hx, forM_append_eq_ok.mpr ⟨s₁, hxs, h₂⟩⟩

/-! ### How it may stop -/

/-- A computation ends with a property, or stops with an error of a kind. -/
def Meets (E : ε → Prop) (x : EStateM ε σ α) (s : σ) (P : α → σ → Prop) : Prop :=
  match x s with
  | .ok a s' => P a s'
  | .error e _ => E e

variable {E : ε → Prop}

theorem meets_of_ok {a : α} {s' : σ} (h : x s = .ok a s') (hP : P a s') : Meets E x s P := by
  unfold Meets
  rw [h]
  exact hP

theorem meets_of_error {e : ε} {s' : σ} (h : x s = .error e s') (hE : E e) : Meets E x s P := by
  unfold Meets
  rw [h]
  exact hE

theorem Meets.of_ok {a : α} {s' : σ} (h : Meets E x s P) (hx : x s = .ok a s') : P a s' := by
  unfold Meets at h
  rwa [hx] at h

theorem Meets.of_error {e : ε} {s' : σ} (h : Meets E x s P) (hx : x s = .error e s') : E e := by
  unfold Meets at h
  rwa [hx] at h

theorem Meets.imp (h : Meets E x s P) (hPQ : ∀ a s', x s = .ok a s' → P a s' → Q a s') : Meets E x s Q := by
  cases hx : x s with
  | ok a s' => exact meets_of_ok hx (hPQ a s' hx (h.of_ok hx))
  | error e s' => exact meets_of_error hx (h.of_error hx)

theorem meets_bind_of_ok {f : α → EStateM ε σ β} {R : β → σ → Prop} {a : α} {s' : σ} (hx : x s = .ok a s')
    (hf : Meets E (f a) s' R) : Meets E (x >>= f) s R := by
  unfold Meets
  rw [bind_of_ok hx]
  exact hf

theorem meets_get_bind {f : σ → EStateM ε σ β} {R : β → σ → Prop} (h : Meets E (f s) s R) : Meets E (get >>= f) s R := h

/-- The second part of a sequence starts where the first part ends. -/
theorem Meets.bind {f : α → EStateM ε σ β} {R : β → σ → Prop} (h : Meets E x s P)
    (hf : ∀ a s', x s = .ok a s' → P a s' → Meets E (f a) s' R) : Meets E (x >>= f) s R := by
  cases hx : x s with
  | ok a s' => exact meets_bind_of_ok hx (hf a s' hx (h.of_ok hx))
  | error e s' => exact meets_of_error (bind_of_error hx) (h.of_error hx)

theorem meets_forM_cons {f : α → EStateM ε σ PUnit} {a : α} {xs : List α} {s' : σ} {u : PUnit} {R : PUnit → σ → Prop}
    (ha : f a s = .ok u s') (hxs : Meets E (xs.forM f) s' R) : Meets E ((a :: xs).forM f) s R :=
  meets_bind_of_ok ha hxs

/-- Two lists, one after another. -/
theorem meets_forM_append {f : α → EStateM ε σ PUnit} {R : PUnit → σ → Prop} : ∀ {xs ys : List α} {s : σ},
    Meets E (xs.forM f) s (fun _ s' => Meets E (ys.forM f) s' R) → Meets E ((xs ++ ys).forM f) s R
  | [], _, _, h => h
  | a :: xs, ys, s, h => by
    have h : Meets E (f a >>= fun _ => xs.forM f) s fun _ s' => Meets E (ys.forM f) s' R := h
    show Meets E (f a >>= fun _ => (xs ++ ys).forM f) s R
    cases ha : f a s with
    | ok u s' =>
      unfold Meets at h ⊢
      rw [bind_of_ok ha] at h ⊢
      exact meets_forM_append h
    | error e s' => exact meets_of_error (bind_of_error ha) (h.of_error (bind_of_error ha))

/-- Lists that are made of a list, one after another. -/
theorem meets_forM_flatMap {f : β → EStateM ε σ PUnit} {g : α → List β} : ∀ {xs : List α} {s : σ}, I s →
    (∀ a ∈ xs, ∀ s, I s → Meets E ((g a).forM f) s fun _ s' => I s') →
      Meets E ((xs.flatMap g).forM f) s fun _ s' => I s'
  | [], _, hs, _ => hs
  | a :: _, s, hs, h => meets_forM_append ((h a List.mem_cons_self s hs).imp fun _ _ _ hs' =>
      meets_forM_flatMap hs' fun b hb => h b (List.mem_cons_of_mem _ hb))

end Reactive.Stateful
