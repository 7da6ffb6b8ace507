import Mathlib.Data.List.Induction
import Mathlib.Data.List.Nodup

/-!
# Reactive.Proofs.Keyed — lists with one element for each key

* `upsert`: the element of a key is changed, or there is a new one behind the others.
* `perm_flatMap_filter`: the elements of a list by key, none lost.
* `foldl_upsert`: elements put in one after another come out by key, the keys in the order in which they were first met.
-/

namespace Reactive

variable {α β κ : Type}

section

variable [DecidableEq κ]

/-- The list with its first element of the key changed, or with a new element behind the others if none has it. -/
def upsert (key : α → κ) (k : κ) (change : α → α) (new : α) : List α → List α
  | [] => [new]
  | a :: as => if key a = k then change a :: as else a :: upsert key k change new as

variable {key : α → κ}

theorem mem_upsert {k : κ} {change : α → α} {new b : α} : ∀ {as : List α}, b ∈ upsert key k change new as →
    b = new ∨ b ∈ as ∨ ∃ a ∈ as, b = change a
  | [], h => Or.inl (List.mem_singleton.mp h)
  | a :: as, h => by
    rw [upsert] at h
    split at h
    · obtain rfl | h := List.mem_cons.mp h
      · exact Or.inr (Or.inr ⟨a, List.mem_cons_self, rfl⟩)
      · exact Or.inr (Or.inl (List.mem_cons_of_mem a h))
    · obtain rfl | h := List.mem_cons.mp h
      · exact Or.inr (Or.inl List.mem_cons_self)
      · obtain hnew | hold | ⟨c, hc, hb⟩ := mem_upsert h
        · exact Or.inl hnew
        · exact Or.inr (Or.inl (List.mem_cons_of_mem a hold))
        · exact Or.inr (Or.inr ⟨c, List.mem_cons_of_mem a hc, hb⟩)

/-- Where the keys are different, an element is found by its key. -/
theorem find?_key {a : α} : ∀ {as : List α}, (as.map key).Nodup → a ∈ as → as.find? (key · = key a) = some a
  | b :: as, hnodup, h => by
    obtain ⟨hb, hnodup⟩ := List.nodup_cons.mp hnodup
    obtain rfl | h := List.mem_cons.mp h
    · exact List.find?_cons_of_pos (by simp)
    · have hne : key b ≠ key a := fun heq => hb (heq ▸ List.mem_map_of_mem h)
      rw [List.find?_cons_of_neg (by simpa using hne)]
      exact find?_key hnodup h

end

variable [BEq κ] [LawfulBEq κ]

theorem eraseDups_concat (ks : List κ) (k : κ) :
    (ks ++ [k]).eraseDups = if k ∈ ks.eraseDups then ks.eraseDups else ks.eraseDups ++ [k] := by
  rw [List.eraseDups_append]
  by_cases h : k ∈ ks
  · rw [if_pos (List.mem_eraseDups.mpr h)]
    simp [List.removeAll, h]
  · rw [if_neg (h ∘ List.mem_eraseDups.mp)]
    simp [List.removeAll, List.eraseDups_cons, h]

theorem nodup_eraseDups (ks : List κ) : ks.eraseDups.Nodup := by
  induction ks using List.reverseRecOn with
  | nil => exact List.nodup_nil
  | append_singleton ks k ih =>
    rw [eraseDups_concat]
    split
    · exact ih
    · rename_i hk
      exact List.nodup_append.mpr ⟨ih, List.nodup_singleton k, fun a ha b hb hab =>
        hk (List.mem_singleton.mp hb ▸ hab ▸ ha)⟩

variable [DecidableEq κ] {key : α → κ}

/-- The elements of a list by key, one key after another. -/
theorem perm_flatMap_filter (keyOf : β → κ) (xs : List β) :
    ((xs.map keyOf).eraseDups.flatMap fun k => xs.filter (keyOf · = k)).Perm xs := by
  suffices h : ∀ (ks : List κ) (xs : List β), ks.Nodup → (∀ x ∈ xs, keyOf x ∈ ks) →
      (ks.flatMap fun k => xs.filter (keyOf · = k)).Perm xs from
    h _ xs (nodup_eraseDups _) fun x hx => List.mem_eraseDups.mpr (List.mem_map_of_mem hx)
  intro ks
  induction ks with
  | nil =>
    intro xs _ hall
    rw [List.eq_nil_iff_forall_not_mem.mpr fun x hx => List.not_mem_nil (hall x hx)]
    exact .refl _
  | cons k ks ih =>
    intro xs hnodup hall
    obtain ⟨hk, hks⟩ := List.nodup_cons.mp hnodup
    -- The other keys have nothing of the first one.
    have hothers : (ks.flatMap fun k' => xs.filter (keyOf · = k')) =
        ks.flatMap fun k' => (xs.filter fun x => !decide (keyOf x = k)).filter (keyOf · = k') := by
      refine List.flatMap_congr fun k' hk' => ?_
      rw [List.filter_filter]
      refine List.filter_congr fun x _ => ?_
      by_cases h : keyOf x = k'
      · have hne : keyOf x ≠ k := fun heq => hk (heq ▸ h ▸ hk')
        simp [h, h ▸ hne]
      · simp [h]
    rw [List.flatMap_cons, hothers]
    refine ((ih _ hks fun x hx => ?_).append_left _).trans (List.filter_append_perm _ xs)
    obtain ⟨hx, hne⟩ := List.mem_filter.mp hx
    exact (List.mem_cons.mp (hall x hx)).resolve_left (by simpa using hne)

/-- One element for each of some keys, of which one is changed or added. -/
theorem upsert_map {k : κ} {change : α → α} {new : α} {f g : κ → α} (hkey : ∀ k, key (f k) = k)
    (hother : ∀ k', k' ≠ k → g k' = f k') : ∀ (ks : List κ), ks.Nodup → (k ∈ ks → change (f k) = g k) →
      (k ∉ ks → new = g k) → upsert key k change new (ks.map f) = (if k ∈ ks then ks else ks ++ [k]).map g
  | [], _, _, hnew => by
    rw [if_neg List.not_mem_nil, List.map_nil, upsert, hnew List.not_mem_nil]
    rfl
  | k' :: ks, hnodup, hchange, hnew => by
    obtain ⟨hk', hks⟩ := List.nodup_cons.mp hnodup
    rw [List.map_cons, upsert, hkey]
    by_cases h : k' = k
    · subst h
      have hrest : ks.map f = ks.map g := List.map_congr_left fun k hk => (hother k fun heq => hk' (heq ▸ hk)).symm
      rw [if_pos rfl, if_pos List.mem_cons_self, List.map_cons, hchange List.mem_cons_self, hrest]
    · have hmem : k ∈ k' :: ks ↔ k ∈ ks := ⟨fun hk => (List.mem_cons.mp hk).resolve_left (Ne.symm h),
        List.mem_cons_of_mem k'⟩
      rw [if_neg h, upsert_map hkey hother ks hks (hchange ∘ hmem.mpr) fun hk => hnew (hk ∘ hmem.mp), ← hother k' h]
      simp only [hmem]
      split <;> rfl

/-- The keys after a change, or with a new one. -/
theorem map_key_upsert {k : κ} {change : α → α} {new : α} (hchange : ∀ a, key (change a) = key a) (hnew : key new = k) :
    ∀ as : List α, (upsert key k change new as).map key = if k ∈ as.map key then as.map key else as.map key ++ [k]
  | [] => by
    rw [upsert, List.map_singleton, hnew]
    rfl
  | a :: as => by
    rw [upsert, List.map_cons]
    by_cases h : key a = k
    · rw [if_pos h, List.map_cons, hchange, if_pos (h ▸ List.mem_cons_self)]
    · rw [if_neg h, List.map_cons, map_key_upsert hchange hnew as]
      by_cases hk : k ∈ as.map key
      · rw [if_pos hk, if_pos (List.mem_cons_of_mem _ hk)]
      · rw [if_neg hk, if_neg fun hmem => hk ((List.mem_cons.mp hmem).resolve_left (Ne.symm h)), List.cons_append]

/-- Elements that are put in by key.  If `group xs k` is what those of `xs` make of the key `k`, there is one group for
each key in the end, in the order in which the keys were first met. -/
theorem foldl_upsert (key : α → κ) (keyOf : β → κ) (change : β → α → α) (new : β → α) (group : List β → κ → α)
    (hkey : ∀ xs k, key (group xs k) = k) (hother : ∀ xs x k, k ≠ keyOf x → group (xs ++ [x]) k = group xs k)
    (hchange : ∀ xs x, keyOf x ∈ xs.map keyOf → change x (group xs (keyOf x)) = group (xs ++ [x]) (keyOf x))
    (hnew : ∀ xs x, keyOf x ∉ xs.map keyOf → new x = group (xs ++ [x]) (keyOf x)) (xs : List β) :
    xs.foldl (fun groups x => upsert key (keyOf x) (change x) (new x) groups) [] =
      (xs.map keyOf).eraseDups.map (group xs) := by
  induction xs using List.reverseRecOn with
  | nil => rfl
  | append_singleton xs x ih =>
    have hmem : keyOf x ∈ (xs.map keyOf).eraseDups ↔ keyOf x ∈ xs.map keyOf := List.mem_eraseDups
    rw [List.foldl_append, List.foldl_cons, List.foldl_nil, ih,
      upsert_map (hkey xs) (hother xs x) _ (nodup_eraseDups _) (hchange xs x ∘ hmem.mp) fun hk => hnew xs x (hk ∘ hmem.mpr),
      List.map_append, List.map_singleton, eraseDups_concat]

end Reactive
