import JvmClass.Proofs.Pool.Invariant
import JvmClass.Proofs.Pool.Writing

/-!
# Pools with room

In a valid pool the remembered indices are right, so the only thing in the way of a new constant is
that there may be no room for it. `PoolM.Succeeds` says of a computation how much room it needs to
go well.
-/

namespace JvmClass

namespace PoolM

variable {α β : Type}

/-- In a valid pool with this much room the computation goes well and takes no more, and what comes
out is as `post` says. -/
def Succeeds (room : Nat) (action : PoolM α) (post : α → Prop) : Prop :=
  ∀ pool : Pool, pool.Valid → pool.count + room ≤ Pool.maxCount →
    ∃ value final, action.run pool = (.ok value, final) ∧ final.count ≤ pool.count + room ∧
      post value

namespace Succeeds

variable {room : Nat}

theorem afterLift {result : Except Error α} {value : α} {next : α → PoolM β} {post : β → Prop}
    (hresult : result = .ok value) (hnext : Succeeds room (next value) post) :
    Succeeds room (liftM result >>= next) post := by
  subst hresult
  exact hnext

theorem pure {value : α} {post : α → Prop} (hpost : post value) :
    Succeeds 0 (Pure.pure value : PoolM α) post :=
  fun pool _ _ => ⟨value, pool, rfl, Nat.le_refl _, hpost⟩

theorem during {action : PoolM α} {post : α → Prop} (activity : Activity)
    (hsucceeds : Succeeds room action post) : Succeeds room (PoolM.during activity action) post := by
  intro pool hvalid hroom
  obtain ⟨value, final, hrun, hfinal⟩ := hsucceeds pool hvalid hroom
  refine ⟨value, final, ?_, hfinal⟩
  rw [run_during, hrun]
  rfl

theorem bind {action : PoolM α} [Lawful action] {next : α → PoolM β} {middle : α → Prop}
    {post : β → Prop} {more : Nat} (haction : Succeeds room action middle)
    (hnext : ∀ value, middle value → Succeeds more (next value) post) :
    Succeeds (room + more) (action >>= next) post := by
  intro pool hvalid hroom
  obtain ⟨value, between, hrun, hbetween, hmiddle⟩ := haction pool hvalid (by omega)
  obtain ⟨result, final, hrest, hfinal, hpost⟩ :=
    hnext value hmiddle between (valid_of_run hvalid hrun) (by omega)
  refine ⟨result, final, ?_, by omega, hpost⟩
  rw [run_bind, hrun]
  exact hrest

theorem intern {entry : Entry} {register : PoolM RawEntry}
    (hregisters : Pool.Registers register entry) (hsucceeds : Succeeds room register fun _ => True) :
    Succeeds (room + entry.kind.width) (Pool.intern entry register) fun _ => True := by
  intro pool hvalid hroom
  cases hindex : pool.indices[entry]? with
  | some index =>
    refine ⟨index, pool, ?_, by omega, trivial⟩
    rw [Pool.run_intern, hindex]
    exact if_pos (Pool.holds_iff.2 ((hvalid.remembers entry index).1 hindex).1)
  | none =>
    have := hregisters.lawful
    obtain ⟨raw, between, hrun, hbetween, -⟩ :=
      hsucceeds.during .addingDependencies pool hvalid (by omega)
    refine ⟨UInt16.ofNat between.count, between.appended entry raw, ?_, ?_, trivial⟩
    · rw [Pool.run_intern, hindex]
      dsimp only
      rw [run_bind, hrun]
      have hnew := hregisters.getElem?_indices_of_run hindex (run_of_run_during hrun)
      exact Pool.run_append_of_new hnew raw (by omega)
    · rw [Pool.count_appended]
      omega

theorem putUtf8 {text : Text} (hlength : (Text.ModifiedUtf8.encode text).length < 65536) :
    Succeeds 1 (Pool.putUtf8 text) fun _ => True := by
  have htext : RawEntry.textBytes text = .ok (Text.ModifiedUtf8.encode text) := if_pos hlength
  exact intern (Pool.registers_utf8 text) (.afterLift htext (.pure trivial))

theorem putClass {name : ClassName}
    (hlength : (Text.ModifiedUtf8.encode name.text).length < 65536) :
    Succeeds 2 (Pool.putClass name) fun _ => True :=
  intern (Pool.registers_class name) ((putUtf8 hlength).bind fun _ _ => .pure trivial)

theorem writeAll {write : α → PoolM Bytes} [∀ value, Lawful (write value)] {values : List α}
    {size : Nat}
    (hvalues : ∀ value ∈ values, Succeeds room (write value) fun bytes => bytes.length ≤ size) :
    Succeeds (values.length * room) (writeAll write values) fun bytes =>
      bytes.length ≤ values.length * size := by
  induction values with
  | nil =>
    rw [List.length_nil, Nat.zero_mul, Nat.zero_mul]
    exact .pure (Nat.le_refl 0)
  | cons value values ih =>
    obtain ⟨hvalue, hvalues⟩ := List.forall_mem_cons.1 hvalues
    rw [writeAll_cons, List.length_cons, Nat.succ_mul, Nat.succ_mul, Nat.add_comm]
    refine hvalue.bind fun bytes hbytes => ?_
    refine (ih hvalues).bind fun others hothers => .pure ?_
    rw [List.length_append]
    omega

theorem writeList {write : α → PoolM Bytes} [∀ value, Lawful (write value)] {values : List α}
    {width size : Nat} (hcount : values.length < 256 ^ width)
    (hvalues : ∀ value ∈ values, Succeeds room (write value) fun bytes => bytes.length ≤ size) :
    Succeeds (values.length * room) (PoolM.writeList width write values) fun bytes =>
      bytes.length ≤ width + values.length * size := by
  refine afterLift (ofCount_eq_ok_iff.2 ⟨hcount, rfl⟩) ?_
  refine (writeAll hvalues).bind fun contents hcontents => .pure ?_
  rw [List.length_append, Bytes.length_bigEndian]
  omega

end Succeeds

end PoolM

end JvmClass
