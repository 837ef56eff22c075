import JvmClass.Proofs.ClassFile.RoundTrip
import JvmClass.Proofs.Code.Reassembly

/-!
# Writing is stable

A class file that was written and read back is written as the same bytes again. The pool that was
read holds every constant that is needed then, at the index where it was found before, so nothing is
added to it; and the code of each method is assembled to the bytecode that it was read from.
-/

namespace JvmClass

open PoolM

/-! ### Methods -/

namespace Method

theorem takes_of_write {method : Method} (hmethod : method.Unambiguous) {pool final later : Pool}
    {bytes : Bytes} (hrun : method.write.run pool = (.ok bytes, final))
    (hlater : final.Extends later) (hvalid : later.Valid) :
    (Method.read later).Takes bytes (ReadAs later (method, method.assemblyPool pool)) := by
  obtain ⟨written, name, descriptor, attributes, hstored⟩ :=
    exists_isStored_of_write hmethod hrun hlater hvalid
  have hothers := splitCodeFrom_eq later method.name method.descriptor hstored.others
  rw [hstored.bytes_eq]
  refine .after (.uint16 method.access) (.after hstored.name (.after hstored.descriptor ?_))
  refine .last ((hstored.attributes.during _).takes rfl) ?_
  rintro _ rfl
  refine .last (.lift fun split hsplit => hsplit) ?_
  rintro ⟨code, others⟩ hsplit
  refine .pure ?_
  obtain ⟨afterCode, hcode⟩ := hstored.code
  obtain ⟨hnone, rfl⟩ | ⟨code, bytecode, hsome, hassemble, rfl⟩ := cases_of_run_codeAttribute hcode
  · cases (hothers none []).symm.trans hsplit
    rw [← hnone]
    exact .withoutCode hnone
  · rw [List.singleton_append, splitCodeFrom] at hsplit
    dsimp only at hsplit
    split at hsplit
    · cases hsplit
    · split at hsplit
      · rename_i decoded hdecoded
        cases (hothers (some decoded) []).symm.trans hsplit
        exact .withCode hsome (congrArg Prod.fst hassemble) (Result.during_eq_ok_iff.1 hdecoded)
      · cases hsplit

theorem exists_takes_of_writeAll {methods : List Method}
    (hmethods : ∀ method ∈ methods, method.Unambiguous) {pool final later : Pool} {bytes : Bytes}
    (hrun : (writeAll Method.write methods).run pool = (.ok bytes, final))
    (hlater : final.Extends later) (hvalid : later.Valid) :
    ∃ parts : List ((Method × Pool) × Bytes), parts.map Prod.fst = sitesFrom methods pool ∧
      parts.flatMap Prod.snd = bytes ∧
      ∀ part ∈ parts, (Method.read later).Takes part.2 (ReadAs later part.1) := by
  induction methods generalizing pool bytes with
  | nil =>
    cases hrun
    exact ⟨[], rfl, rfl, fun _ hpart => (List.not_mem_nil hpart).elim⟩
  | cons method methods ih =>
    rw [writeAll_cons] at hrun
    obtain ⟨front, between, hfront, hrun⟩ := exists_of_run_bind hrun
    obtain ⟨others, last, hothers, hrun⟩ := exists_of_run_bind hrun
    cases hrun
    obtain ⟨hmethod, hmethods⟩ := List.forall_mem_cons.1 hmethods
    obtain ⟨parts, hsites, hbytes, htakes⟩ := ih hmethods hothers
    have hfirst := takes_of_write hmethod hfront ((extends_of_run hothers).trans hlater) hvalid
    refine ⟨((method, method.assemblyPool pool), front) :: parts, ?_, ?_,
      List.forall_mem_cons.2 ⟨hfirst, htakes⟩⟩
    · rw [List.map_cons, hsites, sitesFrom, hfront]
    · rw [List.flatMap_cons, hbytes]

/-- The code of a method has its tables to itself, and it has no switches unless it is laid out at
once. -/
structure IsStable (site : Method × Pool) : Prop where
  tables : ∀ code, site.1.code = some code →
    ∀ other ∈ code.attributes, other.value.isCodeTable = false
  layout : ∀ code, site.1.code = some code →
    (∀ line ∈ code.lines, line.instruction.isSwitch = false) ∨ code.LaidOutAtOnce site.2

/-- Other code that is assembled to the same bytecode is written as the same attribute. -/
theorem codeAttribute_again {method : Method} {decoded : Code} {bytecode : CodeAttribute}
    {pool final later : Pool} {written : List Attribute}
    (hrun : method.codeAttribute.run pool = (.ok written, final)) {code : Code}
    (hsome : method.code = some code) (hassemble : (code.assemble.run pool).1 = .ok bytecode)
    (hagain : decoded.assemble.run later = (.ok bytecode, later)) :
    ({ method with code := some decoded }).codeAttribute.run later = (.ok written, later) := by
  unfold codeAttribute at hrun ⊢
  rw [hsome] at hrun
  dsimp only at hrun ⊢
  split at hrun
  · cases hrun
  · rename_i hname
    obtain ⟨found, between, hduring, hattributes⟩ := exists_of_run_bind hrun
    have hfound := congrArg Prod.fst (run_of_run_during hduring)
    cases hassemble.symm.trans hfound
    cases hattributes
    rw [if_neg hname]
    refine run_bind_of_run ?_ rfl
    rw [run_during, hagain]
    rfl

/-- **Methods.** A method that was written and read back is written as the same bytes. -/
theorem write_of_readAs {method back : Method} {pool final later : Pool} {bytes : Bytes}
    (hrun : method.write.run pool = (.ok bytes, final)) (hlater : final.Extends later)
    (hstable : IsStable (method, method.assemblyPool pool))
    (hback : ReadAs later (method, method.assemblyPool pool) back) :
    back.write.run later = (.ok bytes, later) := by
  cases hback with
  | withoutCode => exact Lawful.replays hrun hlater
  | @withCode _ _ code decoded bytecode hsome hassemble hdecode =>
    obtain ⟨name, afterName, hname, hrun⟩ := exists_of_run_bind hrun
    obtain ⟨descriptor, afterDescriptor, hdescriptor, hrun⟩ := exists_of_run_bind hrun
    obtain ⟨written, afterCode, hcode, hrun⟩ := exists_of_run_bind hrun
    obtain ⟨attributes, last, hattributes, hrun⟩ := exists_of_run_bind hrun
    cases hrun
    rw [assemblyPool_eq hname hdescriptor] at hassemble hstable
    have hattributesLater := (extends_of_run hattributes).trans hlater
    have hcodeLater := (extends_of_run hcode).trans hattributesLater
    have hagain : decoded.assemble.run later = (.ok bytecode, later) := by
      obtain ⟨hnone, -⟩ | ⟨found, assembled, hfound, hassembled, -⟩ :=
        cases_of_run_codeAttribute hcode
      · cases hsome.symm.trans hnone
      · cases hsome.symm.trans hfound
        cases hassemble.symm.trans (congrArg Prod.fst hassembled)
        exact Code.assemble_of_disassemble hassembled hattributesLater (hstable.tables code hsome)
          (hstable.layout code hsome) hdecode
    refine run_bind_of_run (Lawful.replays hname ((extends_of_run hdescriptor).trans hcodeLater)) ?_
    refine run_bind_of_run (Lawful.replays hdescriptor hcodeLater) ?_
    refine run_bind_of_run (codeAttribute_again hcode hsome hassemble hagain) ?_
    exact run_bind_of_run (Lawful.replays hattributes hlater) rfl

theorem writeAll_of_readAs {methods backs : List Method} {pool final later : Pool} {bytes : Bytes}
    (hrun : (writeAll Method.write methods).run pool = (.ok bytes, final))
    (hlater : final.Extends later) (hstable : ∀ site ∈ sitesFrom methods pool, IsStable site)
    (hbacks : List.Forall₂ (ReadAs later) (sitesFrom methods pool) backs) :
    (writeAll Method.write backs).run later = (.ok bytes, later) := by
  induction methods generalizing pool bytes backs with
  | nil =>
    cases hrun
    cases hbacks
    rfl
  | cons method methods ih =>
    rw [writeAll_cons] at hrun
    obtain ⟨front, between, hfront, hrun⟩ := exists_of_run_bind hrun
    obtain ⟨others, last, hothers, hrun⟩ := exists_of_run_bind hrun
    cases hrun
    rw [sitesFrom, hfront] at hstable hbacks
    obtain ⟨hfirst, hstable⟩ := List.forall_mem_cons.1 hstable
    cases hbacks with
    | cons hback hbacks =>
      rw [writeAll_cons]
      refine run_bind_of_run (write_of_readAs hfront ((extends_of_run hothers).trans hlater) hfirst
        hback) ?_
      exact run_bind_of_run (ih hothers hstable hbacks) rfl

end Method

/-! ### Class files -/

namespace ClassFile

/-- A version that is read is supported, and the rest follows the header. -/
theorem takes_header {β : Type} {file : ClassFile} {next : Version → Reader β} {bytes : Bytes}
    {post : β → Prop} (hnext : (next file.version).Takes bytes post) :
    (Reader.uint32 >>= fun magic => do
      if magic != ClassFile.magic then
        Reader.fail (.wrongMagic magic)
      next (← readVersion)).Takes (file.header ++ bytes) post := by
  have hversion : readVersion.Takes (Bytes.ofUInt16 file.version.minor ++
      Bytes.ofUInt16 file.version.major) fun version => version = file.version := by
    refine .after (.uint16 file.version.minor) (.last ((Reader.Reads.uint16 _).takes rfl) ?_)
    rintro _ rfl
    dsimp only
    split
    · exact .last .fail fun _ (hfalse : False) => hfalse.elim
    · exact .pure rfl
  unfold header
  rw [List.append_assoc, List.append_assoc]
  refine .after (.uint32 magic) ?_
  dsimp only
  rw [bne_self_eq_false, if_neg Bool.false_ne_true, ← List.append_assoc]
  exact .bind hversion fun _ hfound => hfound ▸ hnext

/-- **Reading.** Whatever is read of a written class file is that class file, with its completed
pool. -/
theorem takes_of_write {file : ClassFile} {bytes : Bytes} (hvalid : file.pool.Valid)
    (hfile : file.Unambiguous) (hwrite : file.write = ⟨bytes, none⟩) :
    ClassFile.read.Takes bytes fun back => ∃ methods,
      List.Forall₂ (Method.ReadAs file.completedPool) file.sites methods ∧
        back = { file with methods := methods, pool := file.completedPool } := by
  obtain ⟨parts, before, after, hstored⟩ := exists_isStored_of_write hvalid hfile hwrite
  obtain ⟨methods, hsites, hbytes, htakes⟩ := Method.exists_takes_of_writeAll hfile.methods
    hstored.methods hstored.later hstored.valid
  have hlength : methods.length = file.methods.length := by
    rw [← List.length_map Prod.fst, hsites, ← List.length_map Prod.fst, Method.map_fst_sitesFrom]
  have hmethods := Reader.Takes.list16 (hlength ▸ hstored.count) htakes
  rw [hlength, hbytes] at hmethods
  rw [hstored.bytes_eq]
  refine takes_header (.after hstored.constants (.after (.uint16 file.access) ?_))
  refine .after hstored.name (.after hstored.superClass ?_)
  refine .after (hstored.interfaces.during _) (.after (hstored.fields.during _) ?_)
  refine .bind (hmethods.during _) fun backs hbacks => ?_
  refine .last ((hstored.attributes.during _).takes rfl) ?_
  rintro _ rfl
  refine .pure ⟨backs, ?_, rfl⟩
  rw [hstored.sites, ← hsites, List.forall₂_map_left_iff]
  exact hbacks

/-- **Writing.** What was read is written with its pool and from the same body. -/
theorem writeBody_of_readAs {file : ClassFile} {body : Bytes}
    (hbody : file.writeBody.run file.pool = (.ok body, file.completedPool))
    (hstable : ∀ site ∈ file.sites, Method.IsStable site) {methods : List Method}
    (hmethods : List.Forall₂ (Method.ReadAs file.completedPool) file.sites methods) :
    ({ file with methods := methods, pool := file.completedPool }).writeBody.run
      file.completedPool = (.ok body, file.completedPool) := by
  obtain ⟨head, afterHead, hhead, hrun⟩ := exists_of_run_bind hbody
  obtain ⟨part, afterMethods, hpart, hrun⟩ := exists_of_run_bind hrun
  obtain ⟨attributes, last, hattributes, hrun⟩ := exists_of_run_bind hrun
  obtain ⟨count, between, hcount, hpart⟩ := exists_of_run_bind hpart
  obtain ⟨contents, afterContents, hcontents, hpart⟩ := exists_of_run_bind hpart
  cases hpart
  obtain ⟨hbytes, hlast⟩ := Prod.mk.inj hrun
  cases hbytes
  rw [show last = file.completedPool from hlast] at hattributes
  obtain ⟨hok, rfl⟩ := Prod.mk.inj hcount
  have hsites : file.sites = Method.sitesFrom file.methods afterHead := by
    rw [sites, hhead]
  have hlength : methods.length = file.methods.length := by
    rw [← hmethods.length_eq, ← List.length_map Prod.fst, sites, Method.map_fst_sitesFrom]
  rw [hsites] at hstable hmethods
  have hafterMethods : afterMethods.Extends file.completedPool := extends_of_run hattributes
  have hcountAgain : (Result.during (.countingPart .methods file.name)
      (Bytes.ofCount 2 methods.length) : PoolM Bytes).run file.completedPool =
        (.ok count, file.completedPool) := by
    rw [run_lift, hlength]
    exact Prod.ext hok rfl
  refine run_bind_of_run (Lawful.replays hhead ((extends_of_run hcontents).trans hafterMethods)) ?_
  refine run_bind_of_run (run_bind_of_run hcountAgain (run_bind_of_run
    (Method.writeAll_of_readAs hcontents hafterMethods hstable hmethods) rfl)) ?_
  exact run_bind_of_run (Lawful.replays hattributes (.refl _)) rfl

theorem exists_instructions_of_readAs_countdown {padding : Nat} (hpadding : 32768 ≤ padding)
    (hroom : padding ≤ 65000) {final pool : Pool} {back : Method}
    (hreadAs : Method.ReadAs final (.countdown padding, pool) back) :
    ∃ code next target rest, back.code = some code ∧ code.lines.map CodeLine.instruction =
      .onVariable .iLoad 0 :: .branch .ifNe next :: .jump .goto target :: rest := by
  cases hreadAs with
  | withoutCode hcode => cases hcode
  | withCode hcode hassemble hdecode =>
    cases hcode
    obtain ⟨bytecode, hall⟩ := Code.exists_assemble_countdown hroom
    rw [hall] at hassemble
    cases hassemble
    obtain ⟨next, target, rest, hlines⟩ :=
      Code.exists_instructions_of_disassemble_countdown hpadding (hall final) hdecode
    exact ⟨_, next, target, rest, rfl, hlines⟩

/-- **Writing is stable.** A class file that was written and then read from what was written is
written as the same bytes again. -/
theorem write_of_read_of_write {file back : ClassFile} {bytes : Bytes} {rest : Input}
    (hpool : file.pool.Built) (hfile : file.Unambiguous)
    (htables : ∀ method ∈ file.methods, ∀ code, method.code = some code →
      ∀ other ∈ code.attributes, other.value.isCodeTable = false)
    (hlayout : ∀ site ∈ file.sites, ∀ code, site.1.code = some code →
      (∀ line ∈ code.lines, line.instruction.isSwitch = false) ∨ code.LaidOutAtOnce site.2)
    (hwrite : file.write = ⟨bytes, none⟩)
    (hread : ClassFile.read (.ofBytes bytes) = .ok (back, rest)) :
    back.write = ⟨bytes, none⟩ := by
  have hinput : Input.ofBytes bytes = ⟨0, bytes ++ []⟩ := by
    rw [List.append_nil]
    rfl
  rw [hinput] at hread
  obtain ⟨-, methods, hmethods, rfl⟩ := takes_of_write hpool.valid hfile hwrite _ _ _ _ hread
  obtain ⟨body, constants, hbody, hconstants, rfl⟩ := exists_of_write hwrite
  have hstable : ∀ site ∈ file.sites, Method.IsStable site := by
    intro site hsite
    have hmethod : site.1 ∈ file.methods := by
      rw [← Method.map_fst_sitesFrom file.methods]
      exact List.mem_map_of_mem hsite
    exact ⟨htables site.1 hmethod, hlayout site hsite⟩
  unfold write
  rw [writeBody_of_readAs hbody hstable hmethods]
  dsimp only
  rw [hconstants]
  rfl

/-- The code that is read has one line more than the code that was written, and is written to the
same bytes. -/
theorem exists_write_again_counter : ∃ bytes back rest, (counter 40000).pool.Built ∧
    (counter 40000).Unambiguous ∧
    (∀ method ∈ (counter 40000).methods, ∀ code, method.code = some code →
      ∀ other ∈ code.attributes, other.value.isCodeTable = false) ∧
    (∀ site ∈ (counter 40000).sites, ∀ code, site.1.code = some code →
      (∀ line ∈ code.lines, line.instruction.isSwitch = false) ∨ code.LaidOutAtOnce site.2) ∧
    (counter 40000).write = ⟨bytes, none⟩ ∧ ClassFile.read (.ofBytes bytes) = .ok (back, rest) ∧
    (∃ code next target lines, back.methods.map Method.code = [some code] ∧
      code.lines.map CodeLine.instruction =
        .onVariable .iLoad 0 :: .branch .ifNe next :: .jump .goto target :: lines) ∧
    back.write = ⟨bytes, none⟩ := by
  have htables : ∀ method ∈ (counter 40000).methods, ∀ code, method.code = some code →
      ∀ other ∈ code.attributes, other.value.isCodeTable = false := by
    refine List.forall_mem_singleton.2 fun code hcode other hother => ?_
    cases hcode
    cases hother
  have hlayout : ∀ site ∈ (counter 40000).sites, ∀ code, site.1.code = some code →
      (∀ line ∈ code.lines, line.instruction.isSwitch = false) ∨ code.LaidOutAtOnce site.2 := by
    refine List.forall_mem_singleton.2 fun code hcode => .inl ?_
    cases hcode
    exact Code.forall_lines_countdown (by decide)
  obtain ⟨bytes, hwrite⟩ := @exists_write_counter 40000 (by decide)
  obtain ⟨methods, hreadAs, hreads⟩ := exists_reads_of_write Pool.valid_empty (by decide)
    unambiguous_counter hwrite (decodes_counter (by decide))
  have hread := hreads 0 []
  rw [List.append_nil] at hread
  obtain ⟨back, others, hback, hothers, rfl⟩ := List.forall₂_cons_left_iff.1 hreadAs
  obtain rfl := List.forall₂_nil_left_iff.1 hothers
  obtain ⟨code, next, target, lines, hcode, hlines⟩ :=
    exists_instructions_of_readAs_countdown (by decide) (by decide) hback
  refine ⟨bytes, _, _, .empty, unambiguous_counter, htables, hlayout, hwrite, hread,
    ⟨code, next, target, lines, ?_, hlines⟩,
    write_of_read_of_write .empty unambiguous_counter htables hlayout hwrite hread⟩
  rw [List.map_singleton, hcode]

end ClassFile

end JvmClass
