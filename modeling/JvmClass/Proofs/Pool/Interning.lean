import JvmClass.Proofs.Pool.Validity

/-!
# Computations on pools

What can be said of every computation that writing is made of. It is `Lawful`: it adds constants at
the end of the pool and nothing else, each of them resolves when it is added, even if the computation
fails later, what it adds can be stored, and once it has gone well it goes the same way again in
every later pool, which it then leaves as it is. And it `Yields` something, which is related to the
pool left behind and to every later one.
-/

namespace JvmClass

/-! ### Running computations -/

namespace PoolM

variable {α β : Type}

@[simp] theorem run_pure (value : α) (pool : Pool) :
    (pure value : PoolM α).run pool = (.ok value, pool) := rfl

theorem run_bind (action : PoolM α) (next : α → PoolM β) (pool : Pool) :
    (action >>= next).run pool =
      match action.run pool with
      | (.ok value, pool) => (next value).run pool
      | (.error error, pool) => (.error error, pool) := by
  change (action.run >>= ExceptT.bindCont next) pool = _
  change ExceptT.bindCont next (action.run pool).1 (action.run pool).2 = _
  rcases action.run pool with ⟨_ | _, _⟩ <;> rfl

@[simp] theorem run_lift (result : Except Error α) (pool : Pool) :
    (liftM result : PoolM α).run pool = (result, pool) := rfl

@[simp] theorem run_fail (fault : Fault) (pool : Pool) :
    (fail fault : PoolM α).run pool = (.error (.ofFault fault), pool) := rfl

theorem run_during (activity : Activity) (action : PoolM α) (pool : Pool) :
    (during activity action).run pool =
      (Result.during activity (action.run pool).1, (action.run pool).2) := rfl

@[simp] theorem run_map (f : α → β) (action : PoolM α) (pool : Pool) :
    (f <$> action).run pool = ((action.run pool).1.map f, (action.run pool).2) := by
  change (action >>= fun value => pure (f value)).run pool = _
  rw [run_bind]
  rcases action.run pool with ⟨_ | _, _⟩ <;> rfl

theorem exists_of_run_bind {action : PoolM α} {next : α → PoolM β} {pool final : Pool} {result : β}
    (hrun : (action >>= next).run pool = (.ok result, final)) :
    ∃ value between, action.run pool = (.ok value, between) ∧
      (next value).run between = (.ok result, final) := by
  rw [run_bind] at hrun
  rcases haction : action.run pool with ⟨_ | value, between⟩
  · rw [haction] at hrun
    cases hrun
  · rw [haction] at hrun
    exact ⟨value, between, rfl, hrun⟩

theorem run_bind_of_run {action : PoolM α} {next : α → PoolM β} {pool between : Pool} {value : α}
    {result : Except Error β × Pool} (haction : action.run pool = (.ok value, between))
    (hnext : (next value).run between = result) : (action >>= next).run pool = result := by
  rw [run_bind, haction]
  exact hnext

theorem run_of_run_during {activity : Activity} {action : PoolM α} {pool final : Pool} {value : α}
    (hrun : (during activity action).run pool = (.ok value, final)) :
    action.run pool = (.ok value, final) := by
  rw [run_during] at hrun
  rcases haction : action.run pool with ⟨_ | found, between⟩ <;> rw [haction] at hrun
  · cases hrun
  · exact hrun

/-! ### Computations that only add -/

class Lawful (action : PoolM α) : Prop where
  /-- Whatever comes of the computation, the constants it started with are still there. -/
  grows (pool : Pool) : pool.Extends (action.run pool).2
  /-- Whatever comes of the computation, what it added resolved when it was added. -/
  accrues {pool : Pool} (hvalid : pool.Valid) : pool.Accrues (action.run pool).2
  /-- Whatever comes of the computation, what it added can be stored. -/
  writable {pool : Pool} (hwritable : pool.Writable) : (action.run pool).2.Writable
  /-- All constants that the computation needed are there when it is done again. -/
  replays {pool final : Pool} {value : α} (hrun : action.run pool = (.ok value, final))
    {later : Pool} (hlater : final.Extends later) : action.run later = (.ok value, later)

theorem extends_run (action : PoolM α) [Lawful action] (pool : Pool) :
    pool.Extends (action.run pool).2 :=
  Lawful.grows pool

theorem extends_of_run {action : PoolM α} [Lawful action] {pool final : Pool}
    {result : Except Error α} (hrun : action.run pool = (result, final)) : pool.Extends final := by
  have hgrows := extends_run action pool
  rwa [hrun] at hgrows

theorem accrues_run (action : PoolM α) [Lawful action] {pool : Pool} (hvalid : pool.Valid) :
    pool.Accrues (action.run pool).2 :=
  Lawful.accrues hvalid

theorem accrues_of_run {action : PoolM α} [Lawful action] {pool final : Pool}
    {result : Except Error α} (hvalid : pool.Valid) (hrun : action.run pool = (result, final)) :
    pool.Accrues final := by
  have haccrues := accrues_run action hvalid
  rwa [hrun] at haccrues

theorem valid_run (action : PoolM α) [Lawful action] {pool : Pool} (hvalid : pool.Valid) :
    (action.run pool).2.Valid :=
  (accrues_run action hvalid).valid hvalid

theorem writable_run (action : PoolM α) [Lawful action] {pool : Pool} (hwritable : pool.Writable) :
    (action.run pool).2.Writable :=
  Lawful.writable hwritable

theorem writable_of_run {action : PoolM α} [Lawful action] {pool final : Pool}
    {result : Except Error α} (hwritable : pool.Writable)
    (hrun : action.run pool = (result, final)) : final.Writable := by
  have hfinal := writable_run action hwritable
  rwa [hrun] at hfinal

theorem valid_of_run {action : PoolM α} [Lawful action] {pool final : Pool}
    {result : Except Error α} (hvalid : pool.Valid) (hrun : action.run pool = (result, final)) :
    final.Valid := by
  have hfinal := valid_run action hvalid
  rwa [hrun] at hfinal

instance (result : Except Error α) : Lawful (liftM result : PoolM α) where
  grows pool := .refl pool
  accrues _ := .refl
  writable hwritable := hwritable
  replays := by
    intro pool final value hrun later hlater
    cases hrun
    rfl

instance (value : α) : Lawful (pure value : PoolM α) :=
  inferInstanceAs (Lawful (liftM (.ok value : Except Error α)))

instance (fault : Fault) : Lawful (fail fault : PoolM α) :=
  inferInstanceAs (Lawful (liftM (.error (.ofFault fault) : Except Error α)))

instance (activity : Activity) (action : PoolM α) [Lawful action] :
    Lawful (during activity action) where
  grows := extends_run action
  accrues := accrues_run action
  writable := writable_run action
  replays := by
    intro pool final value hrun later hlater
    rw [run_during, Lawful.replays (run_of_run_during hrun) hlater]
    rfl

instance (action : PoolM α) (next : α → PoolM β) [Lawful action] [∀ value, Lawful (next value)] :
    Lawful (action >>= next) where
  grows := by
    intro pool
    rw [run_bind]
    rcases haction : action.run pool with ⟨_ | value, between⟩
    · exact extends_of_run haction
    · exact (extends_of_run haction).trans (extends_run (next value) between)
  accrues := by
    intro pool hvalid
    rw [run_bind]
    rcases haction : action.run pool with ⟨_ | value, between⟩
    · exact accrues_of_run hvalid haction
    · exact (accrues_of_run hvalid haction).trans (Lawful.accrues (valid_of_run hvalid haction))
  writable := by
    intro pool hwritable
    rw [run_bind]
    rcases haction : action.run pool with ⟨_ | value, between⟩
    · exact writable_of_run hwritable haction
    · exact Lawful.writable (writable_of_run hwritable haction)
  replays := by
    intro pool final result hrun later hlater
    obtain ⟨value, between, haction, hnext⟩ := exists_of_run_bind hrun
    rw [run_bind, Lawful.replays haction ((extends_of_run hnext).trans hlater)]
    exact Lawful.replays hnext hlater

instance (f : α → β) (action : PoolM α) [Lawful action] : Lawful (f <$> action) :=
  inferInstanceAs (Lawful (action >>= fun value => pure (f value)))

/-- What comes out is as `post` says, in the pool left behind and in all later ones. -/
def Yields (action : PoolM α) (post : α → Pool → Prop) : Prop :=
  ∀ pool value final, action.run pool = (.ok value, final) →
    ∀ later, final.Extends later → post value later

namespace Yields

theorem pure {post : α → Pool → Prop} {value : α} (hpost : ∀ later, post value later) :
    Yields (Pure.pure value) post := by
  intro pool found final hrun later hlater
  cases hrun
  exact hpost later

theorem lift {result : Except Error α} {post : α → Pool → Prop}
    (hpost : ∀ value, result = .ok value → ∀ later, post value later) :
    Yields (liftM result) post := by
  intro pool value final hrun later hlater
  cases hrun
  exact hpost value rfl later

theorem during {action : PoolM α} {post : α → Pool → Prop} (activity : Activity)
    (hyields : Yields action post) : Yields (PoolM.during activity action) post := by
  intro pool value final hrun
  exact hyields pool value final (run_of_run_during hrun)

theorem bind {action : PoolM α} {next : α → PoolM β} [∀ value, Lawful (next value)]
    {middle : α → Pool → Prop} {post : β → Pool → Prop} (hfirst : Yields action middle)
    (hnext : ∀ value, Yields (next value) fun result later => middle value later → post result later) :
    Yields (action >>= next) post := by
  intro pool result final hrun later hlater
  obtain ⟨value, between, haction, hrest⟩ := exists_of_run_bind hrun
  have hmiddle := hfirst pool value between haction later ((extends_of_run hrest).trans hlater)
  exact hnext value between result final hrest later hlater hmiddle

theorem after {action : PoolM α} {next : α → PoolM β} {post : β → Pool → Prop}
    (hnext : ∀ value, Yields (next value) post) : Yields (action >>= next) post := by
  intro pool result final hrun
  obtain ⟨value, between, -, hrest⟩ := exists_of_run_bind hrun
  exact hnext value between result final hrest

theorem map {action : PoolM α} {f : α → β} {post : β → Pool → Prop}
    (hyields : Yields action fun value later => post (f value) later) :
    Yields (f <$> action) post := by
  intro pool result final hrun later hlater
  rw [run_map] at hrun
  rcases haction : action.run pool with ⟨_ | value, between⟩ <;> rw [haction] at hrun
  · cases hrun
  · cases hrun
    exact hyields pool value _ haction later hlater

theorem mono {action : PoolM α} {weak strong : α → Pool → Prop} (hyields : Yields action strong)
    (himp : ∀ value later, strong value later → weak value later) : Yields action weak :=
  fun pool value final hrun later hlater =>
    himp value later (hyields pool value final hrun later hlater)

end Yields

/-! ### What a computation can add -/

/-- A constant refers to constants of lower rank only. -/
def rank : EntryKind → Nat
  | .utf8 | .integer | .float | .long | .double => 0
  | .classRef | .string | .nameAndType | .methodType | .moduleRef | .packageRef => 1
  | .fieldRef | .methodRef | .interfaceMethodRef | .dynamic | .invokeDynamic => 2
  | .methodHandle => 3

/-- The computation adds constants of lower rank than the given one only. -/
def AddsBelow (bound : Nat) (action : PoolM α) : Prop :=
  ∀ pool, ∃ items : List (Entry × RawEntry),
    pool.addAll items = (action.run pool).2 ∧ ∀ item ∈ items, rank item.1.kind < bound

namespace AddsBelow

variable {bound : Nat}

theorem lift (result : Except Error α) : AddsBelow bound (liftM result : PoolM α) :=
  fun _ => ⟨[], rfl, fun _ hmem => (List.not_mem_nil hmem).elim⟩

theorem bind {action : PoolM α} {next : α → PoolM β} (haction : AddsBelow bound action)
    (hnext : ∀ value, AddsBelow bound (next value)) : AddsBelow bound (action >>= next) := by
  intro pool
  obtain ⟨items, hitems, hbelow⟩ := haction pool
  rw [run_bind]
  rcases hrun : action.run pool with ⟨_ | value, between⟩ <;> rw [hrun] at hitems
  · exact ⟨items, hitems, hbelow⟩
  · obtain ⟨others, hothers, hothersBelow⟩ := hnext value between
    refine ⟨items ++ others, ?_, ?_⟩
    · rw [Pool.addAll_append, hitems]
      exact hothers
    · intro item hmem
      rcases List.mem_append.1 hmem with hmem | hmem
      · exact hbelow item hmem
      · exact hothersBelow item hmem

theorem during {action : PoolM α} (activity : Activity) (haction : AddsBelow bound action) :
    AddsBelow bound (PoolM.during activity action) :=
  haction

theorem mono {action : PoolM α} {larger : Nat} (haction : AddsBelow bound action)
    (hle : bound ≤ larger) : AddsBelow larger action := by
  intro pool
  obtain ⟨items, hitems, hbelow⟩ := haction pool
  exact ⟨items, hitems, fun item hmem => Nat.lt_of_lt_of_le (hbelow item hmem) hle⟩

end AddsBelow

end PoolM

/-! ### Interning -/

namespace Pool

open PoolM

theorem run_append (entry : Entry) (raw : RawEntry) (pool : Pool) :
    (append entry raw).run pool =
      if maxCount < pool.count + entry.kind.width then
        (.error (.ofFault (.poolFull entry.kind pool.count)), pool)
      else
        (.ok (UInt16.ofNat pool.count), ⟨(pool.appended entry raw).slots,
          pool.indices.insert entry (UInt16.ofNat pool.count)⟩) := by
  have hslots : (pool.appended entry raw).slots =
      if entry.kind.isWide then (pool.slots.push (.entry entry raw)).push .upperHalf
      else pool.slots.push (.entry entry raw) := by
    unfold appended
    split <;> rfl
  rw [hslots]
  rfl

/-- A constant that is not remembered yet is appended as one that is read is. -/
theorem run_append_of_new {entry : Entry} {pool : Pool} (hnew : pool.indices[entry]? = none)
    (raw : RawEntry) (hroom : pool.count + entry.kind.width ≤ maxCount) :
    (append entry raw).run pool = (.ok (UInt16.ofNat pool.count), pool.appended entry raw) := by
  rw [run_append, if_neg (Nat.not_lt.2 hroom), ← insertIfNew_eq_insert hnew, ← indices_appended]

theorem exists_of_run_append {entry : Entry} {raw : RawEntry} {pool final : Pool} {index : UInt16}
    (hrun : (append entry raw).run pool = (.ok index, final)) :
    pool.count + entry.kind.width ≤ maxCount ∧ index = UInt16.ofNat pool.count ∧
      final.slots = (pool.appended entry raw).slots ∧
      final.indices = pool.indices.insert entry index := by
  rw [run_append] at hrun
  split at hrun
  · cases hrun
  · rename_i hroom
    cases hrun
    exact ⟨Nat.le_of_not_lt hroom, rfl, rfl, rfl⟩

theorem get_appended (pool : Pool) (entry : Entry) (raw : RawEntry)
    (hroom : pool.count + entry.kind.width ≤ maxCount) :
    (pool.appended entry raw).get (UInt16.ofNat pool.count) = .ok entry := by
  have hcount : (UInt16.ofNat pool.count).toNat = pool.slots.size := by
    have hwidth : 1 ≤ entry.kind.width := by
      unfold EntryKind.width
      split <;> decide
    have hlt : pool.count < 65536 := by
      unfold maxCount at hroom
      omega
    rw [UInt16.toNat_ofNat_of_lt' hlt, count]
  refine get_eq_ok_iff.2 ⟨raw, ?_⟩
  rw [hcount]
  exact pool.getElem?_appended entry raw

theorem run_intern (entry : Entry) (register : PoolM RawEntry) (pool : Pool) :
    (intern entry register).run pool =
      match pool.indices[entry]? with
      | some index =>
        if pool.holds index entry then
          (.ok index, pool)
        else
          (.error (.ofFault (.misremembered entry.kind index)), pool)
      | none => (PoolM.during .addingDependencies register >>= append entry).run pool := rfl

/-- A constant that is interned was found where it is remembered to be, or else was appended. -/
theorem cases_of_run_intern {entry : Entry} {register : PoolM RawEntry} {pool final : Pool}
    {index : UInt16} (hrun : (intern entry register).run pool = (.ok index, final)) :
    (pool.indices[entry]? = some index ∧ pool.get index = .ok entry ∧ final = pool) ∨
      (pool.indices[entry]? = none ∧ ∃ raw between, register.run pool = (.ok raw, between) ∧
        (append entry raw).run between = (.ok index, final)) := by
  rw [run_intern] at hrun
  split at hrun
  · rename_i found hfound
    split at hrun
    · rename_i hholds
      cases hrun
      exact .inl ⟨hfound, holds_iff.1 hholds, rfl⟩
    · cases hrun
  · rename_i hnone
    obtain ⟨raw, between, hregister, happend⟩ := exists_of_run_bind hrun
    exact .inr ⟨hnone, raw, between, run_of_run_during hregister, happend⟩

theorem yields_intern (entry : Entry) (register : PoolM RawEntry) :
    Yields (intern entry register) fun index later => later.get index = .ok entry := by
  intro pool index final hrun later hlater
  rcases cases_of_run_intern hrun with ⟨-, hget, rfl⟩ | ⟨-, raw, between, -, happend⟩
  · exact get_of_extends hlater hget
  · obtain ⟨hroom, rfl, hslots, -⟩ := exists_of_run_append happend
    have hget := between.get_appended entry raw hroom
    refine get_of_extends hlater ?_
    rw [get_eq_ok_iff] at hget ⊢
    rwa [hslots]

/-- The computation stores a constant: what comes out of it resolves to the constant, and what it
adds on the way can only be something that the constant refers to. -/
structure Registers (register : PoolM RawEntry) (entry : Entry) : Prop where
  lawful : Lawful register
  resolves : Yields register fun raw later => later.Valid → raw.resolve later.stored = .ok entry
  writable : Yields register fun raw _ => ∃ contents, raw.contents = .ok contents
  addsBelow : AddsBelow (rank entry.kind) register

namespace Registers

variable {entry : Entry} {register : PoolM RawEntry}

/-- What is added on the way to storing a constant is not the constant itself. -/
theorem getElem?_indices_of_run (hregisters : Registers register entry) {pool between : Pool}
    {result : Except Error RawEntry} (hnew : pool.indices[entry]? = none)
    (hregister : register.run pool = (result, between)) : between.indices[entry]? = none := by
  obtain ⟨items, hitems, hbelow⟩ := hregisters.addsBelow pool
  rw [hregister] at hitems
  have hother : ∀ item ∈ items, item.1 ≠ entry := by
    intro item hmem heq
    have hlt := hbelow item hmem
    rw [heq] at hlt
    exact Nat.lt_irrefl _ hlt
  rw [← hnew, ← getElem?_indices_addAll hother pool, hitems]

/-- Interning leaves the pool as it was, with what storing the constant has added, or with the
constant after that. -/
theorem pool_of_intern (hregisters : Registers register entry) (pool : Pool) :
    ((Pool.intern entry register).run pool).2 = pool ∨
    ((Pool.intern entry register).run pool).2 = (register.run pool).2 ∨
    ∃ raw between, register.run pool = (.ok raw, between) ∧
      between.count + entry.kind.width ≤ maxCount ∧
      ((Pool.intern entry register).run pool).2 = between.appended entry raw := by
  rw [run_intern]
  split
  · split <;> exact .inl rfl
  · rename_i hnew
    refine .inr ?_
    rw [run_bind, run_during]
    rcases hregister : register.run pool with ⟨_ | raw, between⟩
    · exact .inl rfl
    · by_cases hroom : between.count + entry.kind.width ≤ maxCount
      · refine .inr ⟨raw, between, rfl, hroom, ?_⟩
        have hnew := hregisters.getElem?_indices_of_run hnew hregister
        exact congrArg Prod.snd (run_append_of_new hnew raw hroom)
      · refine .inl ?_
        change ((append entry raw).run between).2 = between
        rw [run_append, if_pos (Nat.lt_of_not_le hroom)]

theorem intern (hregisters : Registers register entry) : Lawful (intern entry register) where
  grows := by
    have := hregisters.lawful
    intro pool
    obtain heq | heq | ⟨raw, between, hregister, -, heq⟩ := hregisters.pool_of_intern pool <;>
      rw [heq]
    · exact .refl pool
    · exact extends_run register pool
    · exact (extends_of_run hregister).trans (between.extends_appended entry raw)
  accrues := by
    have := hregisters.lawful
    intro pool hvalid
    obtain heq | heq | ⟨raw, between, hregister, hroom, heq⟩ := hregisters.pool_of_intern pool <;>
      rw [heq]
    · exact .refl
    · exact accrues_run register hvalid
    · have hbefore : pool.Accrues between := accrues_of_run hvalid hregister
      refine .append hbefore hroom ?_
      exact hregisters.resolves pool raw between hregister between (.refl _)
        (hbefore.valid hvalid)
  writable := by
    have := hregisters.lawful
    intro pool hwritable
    obtain heq | heq | ⟨raw, between, hregister, -, heq⟩ := hregisters.pool_of_intern pool <;>
      rw [heq]
    · exact hwritable
    · exact writable_run register hwritable
    · exact (writable_of_run hwritable hregister).appended
        (hregisters.writable pool raw between hregister between (.refl _))
  replays := by
    intro pool final index hrun later hlater
    have hget : later.get index = .ok entry :=
      yields_intern entry register pool index final hrun later hlater
    have hindex : later.indices[entry]? = some index := by
      apply hlater.getElem?_indices
      rcases cases_of_run_intern hrun with ⟨hfound, -, rfl⟩ | ⟨-, raw, between, -, happend⟩
      · exact hfound
      · obtain ⟨-, -, -, hindices⟩ := exists_of_run_append happend
        rw [hindices, Std.HashMap.getElem?_insert_self]
    rw [run_intern, hindex]
    dsimp only
    rw [if_pos (holds_iff.2 hget)]

theorem addsBelow_intern (hregisters : Registers register entry) {bound : Nat}
    (hbound : rank entry.kind < bound) : AddsBelow bound (Pool.intern entry register) := by
  intro pool
  obtain ⟨items, hitems, hbelow⟩ := hregisters.addsBelow.mono (Nat.le_of_lt hbound) pool
  obtain heq | heq | ⟨raw, between, hregister, -, heq⟩ := hregisters.pool_of_intern pool <;>
    rw [heq]
  · exact ⟨[], rfl, fun _ hmem => (List.not_mem_nil hmem).elim⟩
  · exact ⟨items, hitems, hbelow⟩
  · rw [hregister] at hitems
    refine ⟨items ++ [(entry, raw)], ?_, ?_⟩
    · rw [addAll_append, hitems]
      rfl
    · intro item hmem
      rcases List.mem_append.1 hmem with hmem | hmem
      · exact hbelow item hmem
      · obtain rfl := List.mem_singleton.1 hmem
        exact hbound

end Registers

/-! ### Constants by kind -/

theorem registers_literal {entry : Entry} {raw : RawEntry} {contents : Bytes}
    (hresolve : ∀ pool, raw.resolve pool = .ok entry) (hcontents : raw.contents = .ok contents) :
    Registers (pure raw) entry where
  lawful := inferInstance
  resolves := .pure fun later _ => hresolve later.stored
  writable := .pure fun _ => ⟨contents, hcontents⟩
  addsBelow := .lift (.ok raw)

theorem registers_utf8 (text : Text) :
    Registers (do let _ ← RawEntry.textBytes text; return .utf8 text) (.utf8 text) where
  lawful := inferInstance
  resolves := .after fun _ => .pure fun _ _ => rfl
  writable := .bind (.lift fun _ hbytes _ => hbytes) fun _ => .pure fun _ hbytes =>
    ⟨_, Result.bind_of_ok hbytes rfl⟩
  addsBelow := .bind (.lift _) fun _ => .lift (.ok _)

instance (text : Text) : Lawful (putUtf8 text) :=
  (registers_utf8 text).intern

theorem yields_putUtf8 (text : Text) :
    Yields (putUtf8 text) fun index later => later.get index = .ok (.utf8 text) :=
  yields_intern _ _

theorem registers_text {entry : Entry} {text : Text} {store : UInt16 → RawEntry}
    (hrank : rank entry.kind = 1)
    (hresolve : ∀ pool index, RawEntry.textAt pool index = .ok text →
      (store index).resolve pool = .ok entry)
    (hcontents : ∀ index, (store index).contents = .ok (Bytes.ofUInt16 index)) :
    Registers (do return store (← putUtf8 text)) entry where
  lawful := inferInstance
  writable := .after fun index => .pure fun _ => ⟨_, hcontents index⟩
  resolves := .bind (yields_putUtf8 text) fun index => .pure fun later hget hvalid =>
    hresolve later.stored index (hvalid.textAt hget)
  addsBelow := by
    rw [hrank]
    exact .bind ((registers_utf8 text).addsBelow_intern Nat.zero_lt_one) fun _ => .lift (.ok _)

theorem registers_class (name : ClassName) :
    Registers (do return .classRef (← putUtf8 name.text)) (.classRef name) := by
  refine registers_text rfl ?_ fun _ => rfl
  intro pool index htext
  refine Result.map_eq_ok_iff.2 ⟨name, Result.bind_of_ok htext ?_, rfl⟩
  simp [ClassName.ofText, ClassName.ofText?, name.isClassName]

theorem registers_nameAndType (value : NameAndType) :
    Registers (do return .nameAndType (← putUtf8 value.name) (← putUtf8 value.descriptor))
      (.nameAndType value) where
  lawful := inferInstance
  writable := .after fun _ => .after fun _ => .pure fun _ => ⟨_, rfl⟩
  resolves := by
    refine .bind (yields_putUtf8 value.name) fun nameIndex => ?_
    refine .bind (yields_putUtf8 value.descriptor) fun descriptorIndex => ?_
    refine .pure fun later hdescriptor hname hvalid => ?_
    refine Result.map_eq_ok_iff.2 ⟨value, ?_, rfl⟩
    exact Result.bind_of_ok (hvalid.textAt hname)
      (Result.bind_of_ok (hvalid.textAt hdescriptor) rfl)
  addsBelow :=
    .bind ((registers_utf8 value.name).addsBelow_intern Nat.zero_lt_one) fun _ =>
      .bind ((registers_utf8 value.descriptor).addsBelow_intern Nat.zero_lt_one) fun _ =>
        .lift (.ok _)

instance (name : ClassName) : Lawful (putClass name) :=
  (registers_class name).intern

instance (value : NameAndType) : Lawful (putNameAndType value) :=
  (registers_nameAndType value).intern

theorem registers_member {entry : Entry} {member : MemberRef} {store : UInt16 → UInt16 → RawEntry}
    (hrank : rank entry.kind = 2)
    (hresolve : ∀ pool owner nameAndType, RawEntry.memberAt pool owner nameAndType = .ok member →
      (store owner nameAndType).resolve pool = .ok entry)
    (hcontents : ∀ owner nameAndType, (store owner nameAndType).contents =
      .ok (Bytes.ofUInt16 owner ++ Bytes.ofUInt16 nameAndType)) :
    Registers (do return store (← putClass member.className) (← putNameAndType member.nameAndType))
      entry where
  lawful := inferInstance
  writable := .after fun owner => .after fun nameAndType => .pure fun _ =>
    ⟨_, hcontents owner nameAndType⟩
  resolves := by
    refine .bind (yields_intern (.classRef member.className) _) fun owner => ?_
    refine .bind (yields_intern (.nameAndType member.nameAndType) _) fun nameAndType => ?_
    refine .pure fun later hnameAndType howner hvalid => ?_
    exact hresolve later.stored owner nameAndType (hvalid.memberAt howner hnameAndType)
  addsBelow := by
    rw [hrank]
    exact .bind ((registers_class _).addsBelow_intern Nat.one_lt_two) fun _ =>
      .bind ((registers_nameAndType _).addsBelow_intern Nat.one_lt_two) fun _ => .lift (.ok _)

theorem registers_fieldRef (member : MemberRef) :
    Registers (do
        return .fieldRef (← putClass member.className) (← putNameAndType member.nameAndType))
      (.fieldRef member) :=
  registers_member rfl (fun _ _ _ hmember => Result.map_eq_ok_iff.2 ⟨member, hmember, rfl⟩)
    fun _ _ => rfl

theorem registers_methodRef (member : MemberRef) :
    Registers (do
        return .methodRef (← putClass member.className) (← putNameAndType member.nameAndType))
      (.methodRef member) :=
  registers_member rfl (fun _ _ _ hmember => Result.map_eq_ok_iff.2 ⟨member, hmember, rfl⟩)
    fun _ _ => rfl

theorem registers_interfaceMethodRef (member : MemberRef) :
    Registers (do
        return .interfaceMethodRef (← putClass member.className) (← putNameAndType member.nameAndType))
      (.interfaceMethodRef member) :=
  registers_member rfl (fun _ _ _ hmember => Result.map_eq_ok_iff.2 ⟨member, hmember, rfl⟩)
    fun _ _ => rfl

instance (member : MemberRef) : Lawful (putFieldRef member) :=
  (registers_fieldRef member).intern

instance (member : MemberRef) : Lawful (putMethodRef member) :=
  (registers_methodRef member).intern

instance (member : MemberRef) : Lawful (putInterfaceMethodRef member) :=
  (registers_interfaceMethodRef member).intern

instance (reference : HandleReference) : Lawful (putReference reference) := by
  cases reference <;> (unfold putReference; infer_instance)

theorem yields_putReference (reference : HandleReference) :
    Yields (putReference reference) fun index later => later.get index = .ok reference.entry := by
  cases reference <;> exact yields_intern _ _

theorem addsBelow_putReference (reference : HandleReference) :
    AddsBelow 3 (putReference reference) := by
  cases reference with
  | field member => exact (registers_fieldRef member).addsBelow_intern (Nat.lt_succ_self 2)
  | method member => exact (registers_methodRef member).addsBelow_intern (Nat.lt_succ_self 2)
  | interfaceMethod member =>
    exact (registers_interfaceMethodRef member).addsBelow_intern (Nat.lt_succ_self 2)

theorem ofByte_toByte (kind : ReferenceKind) : ReferenceKind.ofByte kind.toByte = .ok kind := by
  cases kind <;> rfl

theorem registers_methodHandle (handle : MethodHandle) :
    Registers (do
        handle.check
        return .methodHandle handle.kind.toByte (← putReference handle.reference))
      (.methodHandle handle) where
  lawful := inferInstance
  writable := .after fun _ => .after fun _ => .pure fun _ => ⟨_, rfl⟩
  resolves := by
    have hcheck : ∀ result, handle.check = .ok result →
        handle.kind.accepts handle.reference = true := by
      intro result hcheck
      unfold MethodHandle.check at hcheck
      split at hcheck
      · assumption
      · cases hcheck
    refine .bind (.lift fun result hresult _ => hcheck result hresult) fun _ => ?_
    refine .bind (yields_putReference handle.reference) fun index => ?_
    refine .pure fun later hget haccepts hvalid => ?_
    obtain ⟨raw, hstored, hresolve⟩ := hvalid.exists_stored hget
    refine Result.bind_of_ok (ofByte_toByte handle.kind) ?_
    exact Result.bind_of_ok (RawEntry.referenceAt_of_resolve hstored hresolve haccepts) rfl
  addsBelow :=
    .bind (.lift _) fun _ => .bind (addsBelow_putReference _) fun _ => .lift (.ok _)

theorem registers_dynamic {entry : Entry} {value : NameAndType} {bootstrap : UInt16}
    {store : UInt16 → RawEntry} (hrank : rank entry.kind = 2)
    (hresolve : ∀ pool index, RawEntry.nameAndTypeAt pool index = .ok value →
      (store index).resolve pool = .ok entry)
    (hcontents : ∀ index, (store index).contents =
      .ok (Bytes.ofUInt16 bootstrap ++ Bytes.ofUInt16 index)) :
    Registers (do return store (← putNameAndType value)) entry where
  lawful := inferInstance
  writable := .after fun index => .pure fun _ => ⟨_, hcontents index⟩
  resolves := .bind (yields_intern (.nameAndType value) _) fun index => .pure fun later hget hvalid =>
    hresolve later.stored index (hvalid.nameAndTypeAt hget)
  addsBelow := by
    rw [hrank]
    exact .bind ((registers_nameAndType value).addsBelow_intern Nat.one_lt_two) fun _ =>
      .lift (.ok _)

instance (value : Int32) : Lawful (putInteger value) :=
  (registers_literal (fun _ => rfl) rfl).intern

instance (bits : UInt32) : Lawful (putFloat bits) :=
  (registers_literal (fun _ => rfl) rfl).intern

instance (value : Int64) : Lawful (putLong value) :=
  (registers_literal (fun _ => rfl) rfl).intern

instance (bits : UInt64) : Lawful (putDouble bits) :=
  (registers_literal (fun _ => rfl) rfl).intern

instance (text : Text) : Lawful (putString text) :=
  (registers_text rfl (fun _ _ htext => Result.map_eq_ok_iff.2 ⟨_, htext, rfl⟩) fun _ => rfl).intern

instance (descriptor : Text) : Lawful (putMethodType descriptor) :=
  (registers_text rfl (fun _ _ htext => Result.map_eq_ok_iff.2 ⟨_, htext, rfl⟩) fun _ => rfl).intern

instance (name : Text) : Lawful (putModule name) :=
  (registers_text rfl (fun _ _ htext => Result.map_eq_ok_iff.2 ⟨_, htext, rfl⟩) fun _ => rfl).intern

instance (name : Text) : Lawful (putPackage name) :=
  (registers_text rfl (fun _ _ htext => Result.map_eq_ok_iff.2 ⟨_, htext, rfl⟩) fun _ => rfl).intern

instance (member : MemberRef) (isInterface : Bool) :
    Lawful (putAnyMethodRef member isInterface) := by
  unfold putAnyMethodRef
  split <;> infer_instance

instance (handle : MethodHandle) : Lawful (putMethodHandle handle) :=
  (registers_methodHandle handle).intern

instance (value : DynamicRef) : Lawful (putDynamic value) :=
  (registers_dynamic rfl (fun _ _ hmember => Result.bind_of_ok hmember rfl) fun _ => rfl).intern

instance (value : DynamicRef) : Lawful (putInvokeDynamic value) :=
  (registers_dynamic rfl (fun _ _ hmember => Result.bind_of_ok hmember rfl) fun _ => rfl).intern

instance (entry : Entry) : Lawful (find entry) := by
  cases entry <;> (unfold find; infer_instance)

theorem yields_find (entry : Entry) :
    Yields (find entry) fun index later => later.get index = .ok entry := by
  cases entry <;> exact yields_intern _ _

end Pool

end JvmClass
