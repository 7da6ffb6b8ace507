import Reactive.Proofs.Evaluation

/-!
# Reactive.Proofs.Instructions — what an instruction does to given operands

The laws of `Run.step` for the instructions that take operands, on a frame that has them.
-/

namespace Reactive.Run

variable (enter : Enter) (a : Activation) (n : Nat) (s locals : List Value) (v w : Value)

theorem step_loadArg (index : UInt16) :
    step enter a ⟨n, s, locals⟩ (.loadArg index) =
      argument a index.toNat >>= fun v => pure (.go ⟨n, v :: s, locals⟩) := rfl

theorem step_loadField (name : String) :
    step enter a ⟨n, s, locals⟩ (.loadField name) =
      loadField a.receiver name >>= fun v => pure (.go ⟨n, v :: s, locals⟩) := rfl

theorem step_storeField (name : String) :
    step enter a ⟨n, v :: s, locals⟩ (.storeField name) =
      storeField a.receiver name v >>= fun _ => pure (.go ⟨n, s, locals⟩) := rfl

theorem step_storeLocal {index : UInt16} (h : index.toNat < locals.length) :
    step enter a ⟨n, v :: s, locals⟩ (.storeLocal index) = pure (.go ⟨n, s, locals.set index.toNat v⟩) := by
  show (if index.toNat < locals.length then _ else _) = _
  rw [if_pos h]

theorem step_loadLocal {index : UInt16} (h : locals[index.toNat]? = some v) :
    step enter a ⟨n, s, locals⟩ (.loadLocal index) = pure (.go ⟨n, v :: s, locals⟩) := by
  show (ofOption _ locals[index.toNat]? >>= _) = _
  rw [h]
  rfl

theorem step_getProperty (name : String) :
    step enter a ⟨n, v :: s, locals⟩ (.getProperty name) =
      readOf enter a.refreshing name v >>= fun w => pure (.go ⟨n, w :: s, locals⟩) := rfl

theorem popMany_reverse (vs : List Value) {argc : UInt8} (h : argc.toNat = vs.length) :
    popMany ⟨n, vs.reverse ++ s, locals⟩ argc = pure (vs, ⟨n, s, locals⟩) := by
  have hlen : ¬ (vs.reverse ++ s).length < vs.length := by simp
  have htake : ((vs.reverse ++ s).take vs.length).reverse = vs := by
    rw [List.take_left' (List.length_reverse), List.reverse_reverse]
  have hdrop : (vs.reverse ++ s).drop vs.length = s := List.drop_left' List.length_reverse
  unfold popMany Frame.popMany?
  rw [h, if_neg hlen, htake, hdrop]
  rfl

theorem step_callMethod (name : String) (vs : List Value) {argc : UInt8} (h : argc.toNat = vs.length) :
    step enter a ⟨n, vs.reverse ++ v :: s, locals⟩ (.callMethod name argc) =
      callOn enter a.refreshing name vs v >>= fun w => pure (.go ⟨n, w :: s, locals⟩) := by
  show (popMany _ argc >>= _) = _
  rw [popMany_reverse n (v :: s) locals vs h]
  rfl

theorem step_callHost (name : String) (vs : List Value) {argc : UInt8} (h : argc.toNat = vs.length) :
    step enter a ⟨n, vs.reverse ++ s, locals⟩ (.callHost name argc) =
      ofExcept (Value.callHost name vs) >>= fun w => pure (.go ⟨n, w :: s, locals⟩) := by
  show (popMany _ argc >>= _) = _
  rw [popMany_reverse n s locals vs h]
  rfl

theorem step_callHook (name : String) :
    step enter a ⟨n, w :: v :: s, locals⟩ (.callHook name 2) =
      callHook enter a.refreshing a.receiver name [v, w] >>= fun _ => pure (.go ⟨n, s, locals⟩) := by
  show (popMany ⟨n, [v, w].reverse ++ s, locals⟩ 2 >>= _) = _
  rw [popMany_reverse n s locals [v, w] rfl]
  rfl

theorem step_unary (op : UnaryOp) :
    step enter a ⟨n, v :: s, locals⟩ (.unary op) =
      ofExcept (v.unary op) >>= fun w => pure (.go ⟨n, w :: s, locals⟩) := rfl

theorem step_binary (op : StrictOp) :
    step enter a ⟨n, w :: v :: s, locals⟩ (.binary op) =
      ofExcept (Value.binary op v w) >>= fun u => pure (.go ⟨n, u :: s, locals⟩) := rfl

theorem step_jumpIfFalse (t : UInt64) :
    step enter a ⟨n, v :: s, locals⟩ (.jumpIfFalse t) =
      truth v >>= fun b => pure (.go ⟨if b then n else t.toNat, s, locals⟩) := by
  cases v with
  | bool b => cases b <;> rfl
  | _ => rfl

theorem step_jumpIfTrue (t : UInt64) :
    step enter a ⟨n, v :: s, locals⟩ (.jumpIfTrue t) =
      truth v >>= fun b => pure (.go ⟨if b then t.toNat else n, s, locals⟩) := by
  cases v with
  | bool b => cases b <;> rfl
  | _ => rfl

theorem step_jumpIfNotNull (t : UInt64) :
    step enter a ⟨n, v :: s, locals⟩ (.jumpIfNotNull t) =
      pure (.go (if v = .null then ⟨n, s, locals⟩ else ⟨t.toNat, v :: s, locals⟩)) := rfl

end Reactive.Run
