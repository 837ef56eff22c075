import JvmClass.Proofs.Pool.Following
import Mathlib.Logic.Equiv.Defs

/-!
# Which pools are read

The bytes from which a pool can be read are those that start with its stored entries, if these are
well-formed, and the pool then holds what its entries denote. The order in which entries are stored
is of no importance: when they are put into another order and the indices in them are changed
accordingly, the pool is read just as well, with the same constants at the changed indices.
-/

namespace JvmClass

namespace RawEntry

variable {raws others : List RawEntry}

/-! ### Entries in another order -/

def renumber (change : UInt16 → UInt16) : RawEntry → RawEntry
  | utf8 text => utf8 text
  | integer value => integer value
  | float bits => float bits
  | long value => long value
  | double bits => double bits
  | classRef name => classRef (change name)
  | string text => string (change text)
  | fieldRef owner member => fieldRef (change owner) (change member)
  | methodRef owner member => methodRef (change owner) (change member)
  | interfaceMethodRef owner member => interfaceMethodRef (change owner) (change member)
  | nameAndType name descriptor => nameAndType (change name) (change descriptor)
  | methodHandle kind reference => methodHandle kind (change reference)
  | methodType descriptor => methodType (change descriptor)
  | dynamic bootstrap member => dynamic bootstrap (change member)
  | invokeDynamic bootstrap member => invokeDynamic bootstrap (change member)
  | moduleRef name => moduleRef (change name)
  | packageRef name => packageRef (change name)

theorem kind_renumber (change : UInt16 → UInt16) (raw : RawEntry) :
    (raw.renumber change).kind = raw.kind := by
  cases raw <;> rfl

theorem renumber_symm_renumber (change : Equiv.Perm UInt16) (raw : RawEntry) :
    (raw.renumber change).renumber change.symm = raw := by
  cases raw <;> simp [renumber]

theorem renumber_renumber_symm (change : Equiv.Perm UInt16) (raw : RawEntry) :
    (raw.renumber change.symm).renumber change = raw :=
  renumber_symm_renumber change.symm raw

/-- The entries are in other places, to which the indices in them were changed as well. -/
def Rearranged (change : Equiv.Perm UInt16) (raws others : List RawEntry) : Prop :=
  ∀ index raw, HoldsAt raws index raw ↔ HoldsAt others (change index) (raw.renumber change)

namespace Rearranged

variable {change : Equiv.Perm UInt16}

theorem symm (hchange : Rearranged change raws others) : Rearranged change.symm others raws := by
  intro index raw
  rw [hchange, renumber_renumber_symm, Equiv.apply_symm_apply]

theorem denotes (hchange : Rearranged change raws others) {index : UInt16} {entry : Entry}
    (hdenotes : Denotes raws index entry) : Denotes others (change index) entry := by
  induction hdenotes with
  | utf8 hholds | integer hholds | float hholds | long hholds | double hholds =>
    constructor
    exact (hchange _ _).1 hholds
  | classRef hholds _ ih => exact .classRef ((hchange _ _).1 hholds) ih
  | string hholds _ ih => exact .string ((hchange _ _).1 hholds) ih
  | methodType hholds _ ih => exact .methodType ((hchange _ _).1 hholds) ih
  | moduleRef hholds _ ih => exact .moduleRef ((hchange _ _).1 hholds) ih
  | packageRef hholds _ ih => exact .packageRef ((hchange _ _).1 hholds) ih
  | dynamic hholds _ ih => exact .dynamic ((hchange _ _).1 hholds) ih
  | invokeDynamic hholds _ ih => exact .invokeDynamic ((hchange _ _).1 hholds) ih
  | nameAndType hholds _ _ ihName ihType =>
    exact .nameAndType ((hchange _ _).1 hholds) ihName ihType
  | fieldRef hholds _ _ ihOwner ihMember =>
    exact .fieldRef ((hchange _ _).1 hholds) ihOwner ihMember
  | methodRef hholds _ _ ihOwner ihMember =>
    exact .methodRef ((hchange _ _).1 hholds) ihOwner ihMember
  | interfaceMethodRef hholds _ _ ihOwner ihMember =>
    exact .interfaceMethodRef ((hchange _ _).1 hholds) ihOwner ihMember
  | methodHandle hholds _ haccepts ih =>
    exact .methodHandle ((hchange _ _).1 hholds) ih haccepts

theorem denotes_iff (hchange : Rearranged change raws others) {index : UInt16} {entry : Entry} :
    Denotes raws index entry ↔ Denotes others (change index) entry := by
  constructor
  · exact hchange.denotes
  · intro hdenotes
    have hback := hchange.symm.denotes hdenotes
    rwa [Equiv.symm_apply_apply] at hback

theorem wellFormed (hchange : Rearranged change raws others) (hwell : WellFormed raws) :
    WellFormed others := by
  rw [wellFormed_iff] at hwell ⊢
  intro index raw hholds
  obtain ⟨entry, hentry⟩ := hwell _ _ ((hchange.symm _ _).1 hholds)
  have hdenotes := hchange.denotes hentry
  rw [Equiv.apply_symm_apply] at hdenotes
  exact ⟨entry, hdenotes⟩

theorem wellFormed_iff (hchange : Rearranged change raws others) :
    WellFormed raws ↔ WellFormed others :=
  ⟨hchange.wellFormed, hchange.symm.wellFormed⟩

end Rearranged

/-! ### Every order of the entries -/

theorem totalWidth_cons (raw : RawEntry) (raws : List RawEntry) :
    totalWidth (raw :: raws) = raw.kind.width + totalWidth raws :=
  List.sum_cons

theorem totalWidth_of_perm (hperm : raws.Perm others) : totalWidth raws = totalWidth others :=
  (hperm.map _).sum_nat

def exchange (start first second : Nat) : Equiv.Perm Nat where
  toFun position :=
    if position < start then position
    else if position < start + first then position + second
    else if position < start + (first + second) then position - first
    else position
  invFun position :=
    if position < start then position
    else if position < start + second then position + first
    else if position < start + (first + second) then position - second
    else position
  left_inv position := by
    dsimp only
    split_ifs <;> omega
  right_inv position := by
    dsimp only
    split_ifs <;> omega

theorem exchange_of_out {start first second position : Nat}
    (hout : position < start ∨ start + (first + second) ≤ position) :
    exchange start first second position = position := by
  show ite _ _ _ = _
  split_ifs <;> omega

theorem exchange_of_in {start first second position : Nat}
    (hin : start ≤ position ∧ position < start + (first + second)) :
    exchange start first second position = position + second ∧ position < start + first ∨
      exchange start first second position + first = position ∧ start + first ≤ position := by
  have happly : exchange start first second position =
      if position < start then position
      else if position < start + first then position + second
      else if position < start + (first + second) then position - first
      else position := rfl
  rw [happly]
  split_ifs <;> omega

/-- When the first two entries change places, the entries behind them stay where they are. -/
theorem mem_layout_exchange_iff (first second : RawEntry) (raws : List RawEntry)
    (start position : Nat) (raw : RawEntry) :
    (position, raw) ∈ layout start (first :: second :: raws) ↔
      (exchange start first.kind.width second.kind.width position, raw) ∈
        layout start (second :: first :: raws) := by
  have hfirst := width_pos first.kind
  have hsecond := width_pos second.kind
  simp only [layout, List.mem_cons, Prod.mk.injEq]
  rw [Nat.add_right_comm start second.kind.width]
  by_cases hin : start ≤ position ∧ position < start + (first.kind.width + second.kind.width)
  · -- Neither of the two blocks moves into the entries behind them.
    have hplace := exchange_of_in hin
    have hbefore : (position, raw) ∉
        layout (start + first.kind.width + second.kind.width) raws := by
      intro hmem
      have hbounds := bounds_of_mem_layout hmem
      omega
    have hafter : (exchange start first.kind.width second.kind.width position, raw) ∉
        layout (start + first.kind.width + second.kind.width) raws := by
      intro hmem
      have hbounds := bounds_of_mem_layout hmem
      omega
    have hfirstPlace : exchange start first.kind.width second.kind.width position =
        start + second.kind.width ↔ position = start := by omega
    have hsecondPlace : exchange start first.kind.width second.kind.width position = start ↔
        position = start + first.kind.width := by omega
    rw [or_iff_left hbefore, or_iff_left hafter, hfirstPlace, hsecondPlace, or_comm]
  · have hstart : position ≠ start := by omega
    have hfirstEnd : position ≠ start + first.kind.width := by omega
    have hsecondEnd : position ≠ start + second.kind.width := by omega
    rw [exchange_of_out (by omega)]
    simp only [hstart, hfirstEnd, hsecondEnd, false_and, false_or]

/-- Entries in another order are found in other places, none of which is outside of the slots that
they take together. -/
theorem exists_places_of_perm (hperm : raws.Perm others) (start : Nat) :
    ∃ change : Equiv.Perm Nat,
      (∀ position, position < start ∨ start + totalWidth raws ≤ position →
        change position = position) ∧
      ∀ position raw, (position, raw) ∈ layout start raws ↔
        (change position, raw) ∈ layout start others := by
  induction hperm generalizing start with
  | nil => exact ⟨Equiv.refl Nat, fun _ _ => rfl, fun _ _ => Iff.rfl⟩
  | @cons first raws others _ ih =>
    obtain ⟨change, hfixed, hplaces⟩ := ih (start + first.kind.width)
    have hpos := width_pos first.kind
    rw [totalWidth_cons]
    refine ⟨change, fun position hout => hfixed position (by omega), fun position raw => ?_⟩
    have hstart : change start = start := hfixed start (by omega)
    have hfirst : change position = start ↔ position = start := by
      constructor
      · intro heq
        exact change.injective (heq.trans hstart.symm)
      · rintro rfl
        exact hstart
    rw [layout, layout, List.mem_cons, List.mem_cons, Prod.mk.injEq, Prod.mk.injEq, hfirst,
      hplaces]
  | swap second first raws =>
    rw [totalWidth_cons, totalWidth_cons, ← Nat.add_assoc]
    exact ⟨exchange start first.kind.width second.kind.width,
      fun position hout => exchange_of_out (by omega),
      mem_layout_exchange_iff first second raws start⟩
  | @trans raws between others hfirst _ ihFirst ihSecond =>
    obtain ⟨first, hfirstFixed, hfirstPlaces⟩ := ihFirst start
    obtain ⟨second, hsecondFixed, hsecondPlaces⟩ := ihSecond start
    refine ⟨first.trans second, fun position hout => ?_, fun position raw => ?_⟩
    · have hbetween := hfirstFixed position hout
      rw [totalWidth_of_perm hfirst] at hout
      rw [Equiv.trans_apply, hbetween, hsecondFixed position hout]
    · rw [hfirstPlaces, hsecondPlaces, Equiv.trans_apply]

/-- A change of places that keeps to the indices is one of the indices. -/
theorem exists_change_of_places (places : Equiv.Perm Nat)
    (hfixed : ∀ position, 65536 ≤ position → places position = position) :
    ∃ change : Equiv.Perm UInt16, ∀ index, (change index).toNat = places index.toNat := by
  have hback : ∀ position, 65536 ≤ position → places.symm position = position := by
    intro position hle
    rw [Equiv.symm_apply_eq, hfixed position hle]
  have htoNat : ∀ {map : Equiv.Perm Nat}, (∀ position, 65536 ≤ position → map position = position) →
      ∀ index : UInt16, (UInt16.ofNat (map index.toNat)).toNat = map index.toNat := by
    intro map hmap index
    apply UInt16.toNat_ofNat_of_lt'
    show map index.toNat < 65536
    by_contra hge
    have hsame : map index.toNat = index.toNat := map.injective (hmap _ (Nat.not_lt.1 hge))
    have hlt : index.toNat < 65536 := index.toNat_lt
    omega
  refine ⟨⟨fun index => UInt16.ofNat (places index.toNat),
    fun index => UInt16.ofNat (places.symm index.toNat), fun index => ?_, fun index => ?_⟩,
    fun index => htoNat hfixed index⟩
  · dsimp only
    rw [htoNat hfixed, Equiv.symm_apply_apply, UInt16.ofNat_toNat]
  · dsimp only
    rw [htoNat hback, Equiv.apply_symm_apply, UInt16.ofNat_toNat]

theorem mem_layout_map_iff {change : Equiv.Perm UInt16} {start position : Nat} {raw : RawEntry} :
    (position, raw.renumber change) ∈ layout start (raws.map (renumber change)) ↔
      (position, raw) ∈ layout start raws := by
  induction raws generalizing start with
  | nil => simp [layout]
  | cons first raws ih =>
    have hinjective : raw.renumber change = first.renumber change ↔ raw = first := by
      constructor
      · intro hsame
        rw [← renumber_symm_renumber change raw, hsame, renumber_symm_renumber]
      · rintro rfl
        rfl
    rw [List.map_cons, layout, layout, List.mem_cons, List.mem_cons, Prod.mk.injEq, Prod.mk.injEq,
      kind_renumber, ih, hinjective]

theorem exists_rearranged_of_perm (hcount : 1 + totalWidth raws ≤ 65536)
    (hperm : raws.Perm others) :
    ∃ change : Equiv.Perm UInt16, Rearranged change raws (others.map (renumber change)) := by
  obtain ⟨places, hfixed, hplaces⟩ := exists_places_of_perm hperm 1
  obtain ⟨change, hchange⟩ :=
    exists_change_of_places places fun position hle => hfixed position (.inr (by omega))
  refine ⟨change, fun index raw => ?_⟩
  rw [HoldsAt, HoldsAt, hchange, mem_layout_map_iff, hplaces]

/-! ### Entries that resolve -/

theorem map_snd_layout (start : Nat) (raws : List RawEntry) :
    (layout start raws).map Prod.snd = raws := by
  induction raws generalizing start with
  | nil => rfl
  | cons raw raws ih => rw [layout, List.map_cons, ih]

theorem mem_of_holdsAt {index : UInt16} {raw : RawEntry} (hholds : HoldsAt raws index raw) :
    raw ∈ raws := by
  have hmem := List.mem_map_of_mem (f := Prod.snd) hholds
  rwa [map_snd_layout] at hmem

theorem exists_holdsAt_of_mem (hcount : 1 + totalWidth raws < 65536) {raw : RawEntry}
    (hmem : raw ∈ raws) : ∃ index, HoldsAt raws index raw := by
  rw [← map_snd_layout 1 raws] at hmem
  obtain ⟨⟨position, found⟩, hposition, rfl⟩ := List.mem_map.1 hmem
  have hbounds := bounds_of_mem_layout hposition
  refine ⟨UInt16.ofNat position, ?_⟩
  rwa [HoldsAt, UInt16.toNat_ofNat_of_lt' (show position < 65536 by omega)]

/-- Entries are well-formed exactly if they resolve in the pool that they make up. -/
theorem wellFormed_iff_resolve (hcount : 1 + totalWidth raws < 65536) :
    WellFormed raws ↔
      ∀ raw ∈ raws, ∃ entry, raw.resolve (RawPool.ofEntries raws) = .ok entry := by
  rw [wellFormed_iff]
  constructor
  · intro hdenotes raw hmem
    obtain ⟨index, hholds⟩ := exists_holdsAt_of_mem hcount hmem
    obtain ⟨entry, hentry⟩ := hdenotes index raw hholds
    exact ⟨entry, (resolve_iff hholds).2 hentry⟩
  · intro hresolve index raw hholds
    obtain ⟨entry, hentry⟩ := hresolve raw (mem_of_holdsAt hholds)
    exact ⟨entry, (resolve_iff hholds).1 hentry⟩

theorem exists_items_of_resolve {stored : RawPool}
    (hresolve : ∀ raw ∈ raws, ∃ entry, raw.resolve stored = .ok entry) :
    ∃ items : List (Entry × RawEntry), items.map Prod.snd = raws ∧
      ∀ item ∈ items, item.2.resolve stored = .ok item.1 := by
  induction raws with
  | nil => exact ⟨[], rfl, List.forall_mem_nil _⟩
  | cons raw raws ih =>
    obtain ⟨hraw, hraws⟩ := List.forall_mem_cons.1 hresolve
    obtain ⟨entry, hentry⟩ := hraw
    obtain ⟨items, rfl, hitems⟩ := ih hraws
    exact ⟨(entry, raw) :: items, rfl, List.forall_mem_cons.2 ⟨hentry, hitems⟩⟩

end RawEntry

namespace Pool

open RawEntry

/-! ### Reading -/

/-- The bytes start with a pool of the given entries: the number of slots with index zero, and then
the entries. -/
def Stores (bytes : Bytes) (raws : List RawEntry) (tail : Bytes) : Prop :=
  ∃ (count : UInt16) (body : Bytes), bytes = Bytes.ofUInt16 count ++ body ++ tail ∧
    Forms raws body ∧ 1 + totalWidth raws = count.toNat

def Accepted (bytes : Bytes) : Prop :=
  ∃ pool rest, Pool.read (.ofBytes bytes) = .ok (pool, rest)

namespace Stores

variable {bytes tail : Bytes} {raws : List RawEntry}

theorem lt (hstores : Stores bytes raws tail) : 1 + totalWidth raws < 65536 := by
  obtain ⟨count, body, -, -, hcount⟩ := hstores
  exact hcount ▸ count.toNat_lt

theorem exists_reads (hstores : Stores bytes raws tail) :
    ∃ front, bytes = front ++ tail ∧ RawPool.read.Reads front (RawPool.ofEntries raws) := by
  obtain ⟨count, body, rfl, hforms, hcount⟩ := hstores
  have hlength : count.toNat = (raws.flatMap RawEntry.slots).length + 1 := by
    rw [length_flatMap_slots, ← hcount, Nat.add_comm]
  exact ⟨_, rfl, RawPool.reads_of_forms hforms hlength count.toNat_lt⟩

theorem exists_items (hstores : Stores bytes raws tail) {pool : Pool} {rest : Input}
    (hread : Pool.read (.ofBytes bytes) = .ok (pool, rest)) :
    ∃ items : List (Entry × RawEntry), items.map Prod.snd = raws ∧ Pool.empty.addAll items = pool ∧
      (∀ item ∈ items, item.2.resolve (RawPool.ofEntries raws) = .ok item.1) ∧
      rest.rest = tail := by
  obtain ⟨front, rfl, hreads⟩ := hstores.exists_reads
  obtain ⟨stored, between, hstored, hresolve⟩ := Reader.exists_of_bind hread
  rw [Input.ofBytes, hreads 0 tail] at hstored
  cases hstored
  cases hslots : resolveSlots (RawPool.ofEntries raws) (RawPool.ofEntries raws).slots.toList.tail
      Pool.empty with
  | error error =>
    rw [hslots] at hresolve
    cases hresolve
  | ok found =>
    rw [hslots] at hresolve
    cases hresolve
    obtain ⟨items, hraws, hfinal, hitems⟩ := exists_of_resolveSlots hslots
    exact ⟨items, hraws, hfinal, hitems, rfl⟩

/-- A pool is read if and only if its entries are well-formed. -/
theorem accepted_iff (hstores : Stores bytes raws tail) : Accepted bytes ↔ WellFormed raws := by
  rw [wellFormed_iff_resolve hstores.lt]
  constructor
  · rintro ⟨pool, rest, hread⟩ raw hmem
    obtain ⟨items, rfl, -, hitems, -⟩ := hstores.exists_items hread
    obtain ⟨item, hitem, rfl⟩ := List.mem_map.1 hmem
    exact ⟨item.1, hitems item hitem⟩
  · intro hresolve
    obtain ⟨items, rfl, hitems⟩ := exists_items_of_resolve hresolve
    obtain ⟨front, rfl, hreads⟩ := hstores.exists_reads
    have hslots := resolveSlots_eq_ok hitems Pool.empty
    rw [← List.flatMap_map Prod.snd RawEntry.slots] at hslots
    have hread : Pool.read.Reads front (Pool.empty.addAll items) := .last hreads (.lift hslots)
    exact ⟨_, _, hread 0 tail⟩

theorem get_iff (hstores : Stores bytes raws tail) {pool : Pool} {rest : Input}
    (hread : Pool.read (.ofBytes bytes) = .ok (pool, rest)) {index : UInt16} {entry : Entry} :
    pool.get index = .ok entry ↔ Denotes raws index entry := by
  have hstored : pool.stored = RawPool.ofEntries raws := by
    obtain ⟨items, rfl, rfl, hitems, -⟩ := hstores.exists_items hread
    exact stored_addAll fun item hmem => kind_of_resolve (hitems item hmem)
  exact (valid_of_read hread).get_iff hstored

end Stores

theorem exists_stores_of_accepted {bytes : Bytes} (haccepted : Accepted bytes) :
    ∃ raws tail, Stores bytes raws tail := by
  obtain ⟨pool, rest, hread⟩ := haccepted
  obtain ⟨count, items, after, body, hinput, -, hfrom, rfl, hcount, hitems⟩ := exists_of_read hread
  refine ⟨items.map Prod.snd, rest.rest, count, body, ?_, hfrom.forms, ?_⟩
  · rw [List.append_assoc, ← hfrom.rest_eq]
    exact hinput
  · rw [← hcount, count_addAll fun item hmem => kind_of_resolve (hitems item hmem),
      length_flatMap_slots, Nat.add_comm]

/-- **Which pools are read.** Bytes are accepted if and only if they start with a pool of
well-formed entries. What is read then holds at each index what is found by following the references
from there. Entries whose references lead back to where they started are not accepted. Entries that
are put in other places, where every order of them can be attained, are accepted just as before, and
the same constants are read. -/
theorem accepted_iff_wellFormed (bytes : Bytes) :
    (Accepted bytes ↔ ∃ raws tail, Stores bytes raws tail ∧ WellFormed raws) ∧
    ∀ (raws : List RawEntry) (tail : Bytes), Stores bytes raws tail →
      (∀ pool rest, Pool.read (.ofBytes bytes) = .ok (pool, rest) →
        rest.rest = tail ∧ ∀ index entry, pool.get index = .ok entry ↔ Denotes raws index entry) ∧
      ((∃ index, Relation.TransGen (RefersTo raws) index index) → ¬Accepted bytes) ∧
      (∀ order, raws.Perm order →
        ∃ change : Equiv.Perm UInt16, Rearranged change raws (order.map (renumber change))) ∧
      ∀ (change : Equiv.Perm UInt16) (others : List RawEntry) (otherBytes otherTail : Bytes),
        Rearranged change raws others → Stores otherBytes others otherTail →
          (Accepted bytes ↔ Accepted otherBytes) ∧
          ∀ pool rest other otherRest, Pool.read (.ofBytes bytes) = .ok (pool, rest) →
            Pool.read (.ofBytes otherBytes) = .ok (other, otherRest) →
              ∀ index entry, pool.get index = .ok entry ↔ other.get (change index) = .ok entry := by
  constructor
  · constructor
    · intro haccepted
      obtain ⟨raws, tail, hstores⟩ := exists_stores_of_accepted haccepted
      exact ⟨raws, tail, hstores, hstores.accepted_iff.1 haccepted⟩
    · rintro ⟨raws, tail, hstores, hwell⟩
      exact hstores.accepted_iff.2 hwell
  · intro raws tail hstores
    refine ⟨fun pool rest hread => ?_, ?_, fun order hperm => ?_, ?_⟩
    · obtain ⟨items, -, -, -, hrest⟩ := hstores.exists_items hread
      exact ⟨hrest, fun index entry => hstores.get_iff hread⟩
    · rintro ⟨index, hcycle⟩ haccepted
      exact (hstores.accepted_iff.1 haccepted).not_transGen index hcycle
    · exact exists_rearranged_of_perm (Nat.le_of_lt hstores.lt) hperm
    · intro change others otherBytes otherTail hchange hothers
      constructor
      · rw [hstores.accepted_iff, hothers.accepted_iff]
        exact hchange.wellFormed_iff
      · intro pool rest other otherRest hread hother index entry
        rw [hstores.get_iff hread, hothers.get_iff hother]
        exact hchange.denotes_iff

/-- A long, and a method handle stored before all that it leads to. -/
def handleFirst : List RawEntry :=
  [.long 9, .methodHandle 6 4, .interfaceMethodRef 5 6, .classRef 7, .nameAndType 7 7,
    .utf8 (.ofString "A")]

def handleFirstBytes : Bytes :=
  [0, 8, 5, 0, 0, 0, 0, 0, 0, 0, 9, 15, 6, 0, 4, 11, 0, 5, 0, 6, 7, 0, 7, 12, 0, 7, 0, 7, 1, 0, 1,
    65]

def handleFirstMember : MemberRef :=
  ⟨⟨.ofString "A", isClassName_letter⟩, .ofString "A", .ofString "A"⟩

def handleFirstEntries : List Entry :=
  [.long 9, .methodHandle ⟨.invokeStatic, .interfaceMethod handleFirstMember⟩,
    .interfaceMethodRef handleFirstMember, .classRef handleFirstMember.className,
    .nameAndType handleFirstMember.nameAndType, .utf8 (.ofString "A")]

theorem stores_handleFirst : Stores (handleFirstBytes ++ [255]) handleFirst [255] := by
  have hletter : Form (.utf8 (.ofString "A")) [1, 0, 1, 65] :=
    @Form.utf8 (.ofString "A") [65] (by decide) rfl
  refine ⟨8, handleFirstBytes.drop 2, rfl, ?_, rfl⟩
  exact .cons (.long 9) (.cons (.methodHandle 6 4) (.cons (.interfaceMethodRef 5 6)
    (.cons (.classRef 7) (.cons (.nameAndType 7 7) (.cons hletter .nil)))))

/-- The method handle is found by following three references, and a class that is its own name is
not accepted. -/
theorem accepted_handleFirst :
    WellFormed handleFirst ∧
      Denotes handleFirst 3
        (.methodHandle ⟨.invokeStatic, .interfaceMethod handleFirstMember⟩) ∧
      Stores [0, 2, 7, 0, 1] [.classRef 1] [] ∧ ¬Accepted [0, 2, 7, 0, 1] := by
  have hread : Pool.read (.ofBytes (handleFirstBytes ++ [255])) =
      .ok (Pool.empty.addAll (handleFirstEntries.zip handleFirst), ⟨32, [255]⟩) := rfl
  obtain ⟨hget, -⟩ := (accepted_iff_wellFormed _).2 _ _ stores_handleFirst
  have hself : Stores [0, 2, 7, 0, 1] [.classRef 1] [] :=
    ⟨2, [7, 0, 1], rfl, .cons (.classRef 1) .nil, rfl⟩
  obtain ⟨-, hcycle, -⟩ := (accepted_iff_wellFormed _).2 _ _ hself
  refine ⟨stores_handleFirst.accepted_iff.1 ⟨_, _, hread⟩, ((hget _ _ hread).2 3 _).1 rfl, hself,
    hcycle ⟨1, .single ⟨.classRef 1, List.mem_cons_self, _, List.mem_cons_self⟩⟩⟩

end Pool

end JvmClass
