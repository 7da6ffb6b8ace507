import Reactive.Proofs.Loaded

/-!
# Reactive.Proofs.Denotation — the value of an expression, given the values of members

* `Expr.readNames`: the members of the instance that an expression reads.
* `Expr.denote`: the value of an expression without a machine, given a reading of the members; calls give null where the
  class leaves the method to others, and no value otherwise.
* `Expr.denote_mono`: the value depends on nothing but the members that are read.
-/

namespace Reactive

/-- The values that members of the instance have, as far as they have any. -/
abbrev Reading := String → Option Value

namespace Value

/-- A property of a value, or what a method of it gives; only strings have any. -/
def part (member : String) (args : List Value) : Value → Option Value
  | string s => (stringMember s member args).toOption
  | _ => none

/-- The value of an operator on a left value, with what the right operand gives if it is evaluated. -/
def combine (op : BinaryOp) (left : Value) (right : Option Value) : Option Value :=
  match op with
  | .and => left.bool?.bind fun b => if b then right else some (.bool false)
  | .or => left.bool?.bind fun b => if b then some (.bool true) else right
  | .coalesce => if left = .null then right else some left
  | op => right.bind fun w =>
    match StrictOp.ofBinary? op with
    | some strict => (binary strict left w).toOption
    | none => some w

theorem combine_mono {op : BinaryOp} {v w : Value} {right right' : Option Value}
    (h : ∀ u, right = some u → right' = some u) (hw : combine op v right = some w) : combine op v right' = some w := by
  have hstrict {f : Value → Option Value} (hw : right.bind f = some w) : right'.bind f = some w := by
    obtain ⟨u, hu, hf⟩ := Option.bind_eq_some_iff.mp hw
    exact Option.bind_eq_some_iff.mpr ⟨u, h u hu, hf⟩
  cases op with
  | and =>
    obtain ⟨b, hb, hif⟩ := Option.bind_eq_some_iff.mp hw
    refine Option.bind_eq_some_iff.mpr ⟨b, hb, ?_⟩
    cases b
    · exact hif
    · exact h w hif
  | or =>
    obtain ⟨b, hb, hif⟩ := Option.bind_eq_some_iff.mp hw
    refine Option.bind_eq_some_iff.mpr ⟨b, hb, ?_⟩
    cases b
    · exact h w hif
    · exact hif
  | coalesce =>
    have hright (r : Option Value) : combine .coalesce v r = if v = .null then r else some v := rfl
    rw [hright] at hw ⊢
    by_cases hnull : v = .null
    · rw [if_pos hnull] at hw ⊢
      exact h w hw
    · rw [if_neg hnull] at hw ⊢
      exact hw
  | _ => exact hstrict hw

end Value

namespace Expr

variable (scope : Scope)

/-! ### Reads -/

mutual

/-- The members of the instance that an expression reads. -/
def readNames : Expr → List String
  | literal .. | this _ | lambda .. => []
  | name n _ => if (scope.param? n).isNone && !hostReceivers.contains n then [n] else []
  | member object n _ =>
    match scope.host? object with
    | some _ => []
    | none => if scope.isInstance object then [n] else readNames object
  | call callee args _ => calleeNames callee ++ allNames args
  | unary _ e _ => readNames e
  | binary _ l r _ => readNames l ++ readNames r
  | conditional c t e _ => readNames c ++ (readNames t ++ readNames e)

/-- The members that are read for what is called; the method itself is not read. -/
def calleeNames : Expr → List String
  | member object _ _ =>
    match scope.host? object with
    | some _ => []
    | none => if scope.isInstance object then [] else readNames object
  | _ => []

/-- The members that expressions read. -/
def allNames : List Expr → List String
  | [] => []
  | e :: es => readNames e ++ allNames es

end

/-! ### Values -/

variable (externs : List String) (ρ : Reading)

/-- What a method of the instance gives that is called on it. -/
def callSelf (externs : List String) (method : String) (_ : List Value) : Option Value :=
  if externs.contains method then some .null else none

mutual

/-- The value of an expression. -/
def denote : Expr → Option Value
  | literal v _ => some v.value
  | name n _ => if (scope.param? n).isNone && !hostReceivers.contains n then ρ n else none
  | this _ | lambda .. => none
  | member object n _ =>
    match scope.host? object with
    | some host => (Value.callHost (host ++ "." ++ n) []).toOption
    | none => if scope.isInstance object then ρ n else (denote object).bind (Value.part n [])
  | call callee args _ => (denoteCallee callee).bind fun call => (denoteAll args).bind call
  | unary op e _ => (denote e).bind fun v => (v.unary op).toOption
  | binary op l r _ => (denote l).bind fun v => v.combine op (denote r)
  | conditional c t e _ => (denote c).bind fun v => v.bool?.bind fun b => if b then denote t else denote e

/-- What is called, with its arguments still to be given. -/
def denoteCallee : Expr → Option (List Value → Option Value)
  | name n _ => if (scope.param? n).isNone then some (callSelf externs n) else none
  | member object n _ =>
    match scope.host? object with
    | some host => some fun args => (Value.callHost (host ++ "." ++ n) args).toOption
    | none =>
      if scope.isInstance object then some (callSelf externs n)
      else (denote object).map fun v args => v.part n args
  | _ => none

/-- The values of expressions. -/
def denoteAll : List Expr → Option (List Value)
  | [] => some []
  | e :: es => (denote e).bind fun v => (denoteAll es).map (v :: ·)

end

end Expr

/-- A projection has no value itself. -/
theorem Expr.denote_projection {scope : Scope} {externs : List String} {ρ : Reading} {e : Expr} {param : String}
    {projected : Expr} (h : e.staticProjection? = some (param, projected)) : e.denote scope externs ρ = none := by
  unfold Expr.staticProjection? at h
  split at h
  · rename_i callee p body s s'
    have hargs : Expr.denoteAll scope externs ρ [.lambda true p body s] = none := by
      rw [Expr.denoteAll, Expr.denote, Option.bind_none]
    rw [Expr.denote, hargs]
    cases Expr.denoteCallee scope externs ρ callee <;> rfl
  · cases h

/-! ### What the value depends on -/

/-- Of some members one reading has the values that another one has. -/
def Reading.Below (names : List String) (ρ ρ' : Reading) : Prop := ∀ n ∈ names, ∀ v, ρ n = some v → ρ' n = some v

theorem Reading.Below.left {names names' : List String} {ρ ρ' : Reading} (h : Below (names ++ names') ρ ρ') :
    Below names ρ ρ' := fun n hn => h n (List.mem_append_left _ hn)

theorem Reading.Below.right {names names' : List String} {ρ ρ' : Reading} (h : Below (names ++ names') ρ ρ') :
    Below names' ρ ρ' := fun n hn => h n (List.mem_append_right _ hn)

namespace Expr

variable {scope : Scope} {externs : List String} {ρ ρ' : Reading}

mutual

/-- The value of an expression stays if the members that it reads keep their values. -/
theorem denote_mono : ∀ (e : Expr) {v : Value}, Reading.Below (e.readNames scope) ρ ρ' →
    e.denote scope externs ρ = some v → e.denote scope externs ρ' = some v
  | literal .., _, _, hv => hv
  | this _, _, _, hv | lambda .., _, _, hv => nomatch hv
  | name n _, v, h, hv => by
    rw [denote] at hv ⊢
    rw [readNames] at h
    split at hv
    · rename_i hread
      rw [if_pos hread] at h ⊢
      exact h n List.mem_cons_self v hv
    · cases hv
  | member object n _, v, h, hv => by
    rw [denote] at hv ⊢
    rw [readNames] at h
    split at hv
    · exact hv
    · rename_i hhost
      rw [hhost] at h
      split at hv
      · rename_i hself
        rw [if_pos hself]
        exact h n (by rw [if_pos hself]; exact List.mem_cons_self) v hv
      · rename_i hself
        rw [if_neg hself]
        obtain ⟨w, hw, hpart⟩ := Option.bind_eq_some_iff.mp hv
        refine Option.bind_eq_some_iff.mpr ⟨w, denote_mono object ?_ hw, hpart⟩
        simpa only [if_neg hself] using h
  | call callee args _, v, h, hv => by
    rw [denote] at hv ⊢
    rw [readNames] at h
    obtain ⟨f, hf, hv⟩ := Option.bind_eq_some_iff.mp hv
    obtain ⟨vs, hvs, hcall⟩ := Option.bind_eq_some_iff.mp hv
    exact Option.bind_eq_some_iff.mpr ⟨f, denoteCallee_mono callee h.left hf,
      Option.bind_eq_some_iff.mpr ⟨vs, denoteAll_mono args h.right hvs, hcall⟩⟩
  | unary op e _, v, h, hv => by
    rw [denote] at hv ⊢
    rw [readNames] at h
    obtain ⟨w, hw, hop⟩ := Option.bind_eq_some_iff.mp hv
    exact Option.bind_eq_some_iff.mpr ⟨w, denote_mono e h hw, hop⟩
  | binary op l r _, v, h, hv => by
    rw [denote] at hv ⊢
    rw [readNames] at h
    obtain ⟨w, hw, hop⟩ := Option.bind_eq_some_iff.mp hv
    exact Option.bind_eq_some_iff.mpr ⟨w, denote_mono l h.left hw,
      Value.combine_mono (fun u hu => denote_mono r h.right hu) hop⟩
  | conditional c t e _, v, h, hv => by
    rw [denote] at hv ⊢
    rw [readNames] at h
    obtain ⟨w, hw, hv⟩ := Option.bind_eq_some_iff.mp hv
    obtain ⟨b, hb, hbranch⟩ := Option.bind_eq_some_iff.mp hv
    refine Option.bind_eq_some_iff.mpr ⟨w, denote_mono c h.left hw, Option.bind_eq_some_iff.mpr ⟨b, hb, ?_⟩⟩
    cases b
    · exact denote_mono e h.right.right hbranch
    · exact denote_mono t h.right.left hbranch

theorem denoteCallee_mono : ∀ (e : Expr) {f : List Value → Option Value}, Reading.Below (e.calleeNames scope) ρ ρ' →
    e.denoteCallee scope externs ρ = some f → e.denoteCallee scope externs ρ' = some f
  | name n _, f, _, hf => by
    rw [denoteCallee] at hf ⊢
    exact hf
  | member object n _, f, h, hf => by
    rw [denoteCallee] at hf ⊢
    rw [calleeNames] at h
    split at hf
    · exact hf
    · rename_i hhost
      rw [hhost] at h
      split at hf
      · rename_i hself
        rw [if_pos hself]
        exact hf
      · rename_i hself
        rw [if_neg hself]
        obtain ⟨w, hw, hpart⟩ := Option.map_eq_some_iff.mp hf
        refine Option.map_eq_some_iff.mpr ⟨w, denote_mono object ?_ hw, hpart⟩
        simpa only [if_neg hself] using h
  | literal .., _, _, hf | this _, _, _, hf | call .., _, _, hf | unary .., _, _, hf | binary .., _, _, hf
  | conditional .., _, _, hf | lambda .., _, _, hf => nomatch hf

theorem denoteAll_mono : ∀ (es : List Expr) {vs : List Value}, Reading.Below (allNames scope es) ρ ρ' →
    denoteAll scope externs ρ es = some vs → denoteAll scope externs ρ' es = some vs
  | [], _, _, hvs => hvs
  | e :: es, vs, h, hvs => by
    rw [denoteAll] at hvs ⊢
    rw [allNames] at h
    obtain ⟨v, hv, hmap⟩ := Option.bind_eq_some_iff.mp hvs
    obtain ⟨ws, hws, heq⟩ := Option.map_eq_some_iff.mp hmap
    exact Option.bind_eq_some_iff.mpr ⟨v, denote_mono e h.left hv,
      Option.map_eq_some_iff.mpr ⟨ws, denoteAll_mono es h.right hws, heq⟩⟩

end

end Expr

end Reactive
