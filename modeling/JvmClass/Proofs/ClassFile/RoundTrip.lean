import JvmClass.ClassFile.Reader
import JvmClass.ClassFile.Writer
import JvmClass.Proofs.Attribute.Codec
import JvmClass.Proofs.Code.Disassembly
import JvmClass.Proofs.Pool.Storing

/-!
# Class files are read back

A class file that can be written is read back from its bytes, with the pool it was completed to and
with everything else as it was, except for the code of methods: that is what the bytecode, which
their instructions were assembled to, is disassembled to. Code is assembled in the middle of
writing, in the pool that is there at that point; `ClassFile.sites` says which one that is.
-/

namespace JvmClass

open PoolM

/-! ### Fields -/

namespace Field

instance (field : Field) : Lawful field.write := by
  unfold write
  infer_instance

theorem encodes_write {field : Field}
    (hattributes : ∀ item ∈ field.attributes, item.Unambiguous .fieldScope) :
    Encodes field.write read field := by
  refine .bind (Pool.yields_putUtf8 field.name) fun name => ?_
  refine .bind (Pool.yields_putUtf8 field.descriptor) fun descriptor => ?_
  refine .bind (.during _ (Attribute.encodes_writeList_of_not_allowed hattributes rfl))
    fun attributes => ?_
  refine .pure fun later hread hdescriptor hname hvalid => ?_
  rw [List.append_assoc, List.append_assoc]
  refine .bind (.uint16 field.access) (.bind (Reader.reads_utf8 hname) ?_)
  refine .bind (Reader.reads_utf8 hdescriptor) ?_
  exact .returning (.during _ (hread hvalid)) rfl

end Field

/-! ### Assembling in the middle of writing -/

instance (code : Code) : Lawful code.assemble := by
  unfold Code.assemble
  rw [putOperands_eq]
  infer_instance

/-- The attributes of bytecode are told apart if those of the code are: all tables are
understood. -/
theorem Code.unambiguous_of_layOut {code : Code} {operands : List Operand}
    {bytecode : CodeAttribute} (hlayOut : code.layOut operands = .ok bytecode)
    (hattributes : ∀ item ∈ code.attributes, item.Unambiguous .codeScope) :
    ∀ item ∈ bytecode.attributes, item.Unambiguous .codeScope := by
  obtain ⟨layout, -, -, -, -, -, rfl⟩ := layOut_eq_ok_iff.1 hlayOut
  intro item hmem bytes hvalue
  rw [bytecodeOf, List.mem_append] at hmem
  rcases hmem with htable | hmem
  · obtain ⟨_, rfl⟩ | ⟨_, rfl⟩ | ⟨_, rfl⟩ | ⟨_, rfl⟩ := cases_of_mem_tablesIn htable <;>
      cases hvalue
  · exact hattributes item hmem bytes hvalue

namespace Method

/-- The pool that the code of a method is assembled in, when the method is written with the given
one. -/
def assemblyPool (method : Method) (pool : Pool) : Pool :=
  ((Pool.putUtf8 method.name >>= fun _ => Pool.putUtf8 method.descriptor).run pool).2

theorem assemblyPool_eq {method : Method} {pool afterName afterDescriptor : Pool}
    {name descriptor : UInt16} (hname : (Pool.putUtf8 method.name).run pool = (.ok name, afterName))
    (hdescriptor :
      (Pool.putUtf8 method.descriptor).run afterName = (.ok descriptor, afterDescriptor)) :
    method.assemblyPool pool = afterDescriptor := by
  rw [assemblyPool, run_bind, hname]
  dsimp only
  rw [hdescriptor]

/-- The methods with the pools that their code is assembled in, when they are written one after the
other. -/
def sitesFrom : List Method → Pool → List (Method × Pool)
  | [], _ => []
  | method :: rest, pool =>
    (method, method.assemblyPool pool) :: sitesFrom rest (method.write.run pool).2

/-- How a method, with the pool that its code is assembled in, is read back with another one. -/
inductive ReadAs (final : Pool) : Method × Pool → Method → Prop
  | withoutCode {method : Method} {pool : Pool} (hcode : method.code = none) :
      ReadAs final (method, pool) method
  | withCode {method : Method} {pool : Pool} {code decoded : Code} {bytecode : CodeAttribute}
      (hcode : method.code = some code) (hassemble : (code.assemble.run pool).1 = .ok bytecode)
      (hdecode : Code.disassemble final bytecode = .ok decoded) :
      ReadAs final (method, pool) { method with code := some decoded }

/-! ### Methods -/

instance (method : Method) : Lawful method.codeAttribute := by
  unfold codeAttribute
  split
  · infer_instance
  · dsimp only
    split <;> infer_instance

instance (method : Method) : Lawful method.write := by
  unfold write
  infer_instance

/-- Attributes without code among them are all kept. -/
theorem splitCodeFrom_eq (pool : Pool) (name descriptor : Text) {attributes : List Attribute}
    (hattributes : ∀ item ∈ attributes, ∀ bytecode, item.value ≠ .code bytecode)
    (code : Option Code) (others : List Attribute) :
    splitCodeFrom pool name descriptor code others attributes =
      .ok (code, others.reverse ++ attributes) := by
  induction attributes generalizing others with
  | nil => rw [splitCodeFrom, List.append_nil]
  | cons item attributes ih =>
    have hitem := hattributes item List.mem_cons_self
    have hrest := fun other hmem => hattributes other (List.mem_cons_of_mem _ hmem)
    rw [splitCodeFrom]
    split
    · rename_i bytecode hvalue
      exact absurd hvalue (hitem bytecode)
    · rw [ih hrest, List.reverse_cons, List.append_assoc, List.singleton_append]

/-- What the code of a method is written as: nothing, or else one attribute with the bytecode that
its instructions are assembled to. -/
theorem cases_of_run_codeAttribute {method : Method} {pool final : Pool}
    {attributes : List Attribute}
    (hrun : method.codeAttribute.run pool = (.ok attributes, final)) :
    (method.code = none ∧ attributes = []) ∨
      ∃ code bytecode, method.code = some code ∧ code.assemble.run pool = (.ok bytecode, final) ∧
        attributes = [⟨AttributeKind.code.text, .code bytecode⟩] := by
  unfold codeAttribute at hrun
  split at hrun
  · rename_i hcode
    cases hrun
    exact .inl ⟨hcode, rfl⟩
  · rename_i code hcode
    dsimp only at hrun
    split at hrun
    · cases hrun
    · obtain ⟨bytecode, between, hassemble, hattributes⟩ := exists_of_run_bind hrun
      cases hattributes
      exact .inr ⟨code, bytecode, hcode, run_of_run_during hassemble, rfl⟩

/-- All attributes of a method and of its code can be told apart, and none of the method has the
name of code. -/
structure Unambiguous (method : Method) : Prop where
  attributes : ∀ item ∈ method.attributes, item.Unambiguous .methodScope
  code : ∀ code, method.code = some code → ∀ item ∈ code.attributes, item.Unambiguous .codeScope
  name_ne : ∀ item ∈ method.attributes, item.name ≠ AttributeKind.code.text

/-- The attributes of a method are read back, the one for its code included. -/
theorem encodes_attributes {method : Method} (hmethod : method.Unambiguous) {pool final : Pool}
    {written : List Attribute}
    (hcode : method.codeAttribute.run pool = (.ok written, final)) :
    Encodes (Attribute.writeList .methodScope (written ++ method.attributes))
      (fun pool => Attribute.readList pool .methodScope) (written ++ method.attributes) := by
  have hwritten : ∀ item ∈ written, item.Unambiguous .methodScope ∧
      ∀ code, item.value = .code code → ∀ other ∈ code.attributes, other.Unambiguous .codeScope := by
    rcases cases_of_run_codeAttribute hcode with ⟨-, rfl⟩ | ⟨code, bytecode, hsome, hassemble, rfl⟩
    · exact fun _ hmem => (List.not_mem_nil hmem).elim
    · obtain ⟨operands, between, -, hlayOut⟩ := exists_of_run_bind hassemble
      have hlaid : code.layOut operands = .ok bytecode := congrArg Prod.fst hlayOut
      intro item hmem
      rw [List.mem_singleton.1 hmem]
      refine ⟨fun bytes hvalue => (nomatch hvalue), fun found hfound => ?_⟩
      cases hfound
      exact Code.unambiguous_of_layOut hlaid (hmethod.code code hsome)
  refine Attribute.encodes_writeList ?_ ?_
  · intro item hmem
    rcases List.mem_append.1 hmem with hmem | hmem
    · exact (hwritten item hmem).1
    · exact hmethod.attributes item hmem
  · intro item hmem code hvalue hname _
    rcases List.mem_append.1 hmem with hmem | hmem
    · exact (hwritten item hmem).2 code hvalue
    · exact absurd hname (hmethod.name_ne item hmem)

/-- Code under any other name than its own is not written. -/
theorem value_ne_code {method : Method} (hmethod : method.Unambiguous) {written : List Attribute}
    {pool final : Pool} {bytes : Bytes}
    (hrun : (Attribute.writeList .methodScope (written ++ method.attributes)).run pool =
      (.ok bytes, final)) : ∀ item ∈ method.attributes, ∀ code, item.value ≠ .code code := by
  intro item hmem code hvalue
  have hcheck := Attribute.yields_checkAll _ _ pool bytes final hrun final (.refl _) item
    (List.mem_append_right _ hmem)
  have hkind : item.value.kind? = some .code := by
    rw [hvalue]
    rfl
  obtain ⟨-, hname, -⟩ := Attribute.kindIn?_of_check hkind hcheck
  exact hmethod.name_ne item hmem hname.symm

/-- The parts that a method is written as, and what each of them is read as. -/
structure IsStored (method : Method) (assembly later : Pool) (bytes : Bytes)
    (written : List Attribute) (name descriptor : UInt16) (attributes : Bytes) : Prop where
  bytes_eq : bytes = Bytes.ofUInt16 method.access ++ (Bytes.ofUInt16 name ++
    (Bytes.ofUInt16 descriptor ++ attributes))
  code : ∃ final, method.codeAttribute.run assembly = (.ok written, final)
  name : (Reader.utf8 later).Reads (Bytes.ofUInt16 name) method.name
  descriptor : (Reader.utf8 later).Reads (Bytes.ofUInt16 descriptor) method.descriptor
  attributes : (Attribute.readList later .methodScope).Reads attributes
    (written ++ method.attributes)
  others : ∀ item ∈ method.attributes, ∀ code, item.value ≠ .code code

theorem exists_isStored_of_write {method : Method} (hmethod : method.Unambiguous)
    {pool final later : Pool} {bytes : Bytes} (hrun : method.write.run pool = (.ok bytes, final))
    (hlater : final.Extends later) (hvalid : later.Valid) :
    ∃ written name descriptor attributes, method.IsStored (method.assemblyPool pool) later bytes
      written name descriptor attributes := by
  obtain ⟨name, afterName, hname, hrun⟩ := exists_of_run_bind hrun
  obtain ⟨descriptor, afterDescriptor, hdescriptor, hrun⟩ := exists_of_run_bind hrun
  obtain ⟨written, afterCode, hcode, hrun⟩ := exists_of_run_bind hrun
  obtain ⟨attributes, last, hattributes, hrun⟩ := exists_of_run_bind hrun
  cases hrun
  have hpool := assemblyPool_eq hname hdescriptor
  have hcodeLater := (extends_of_run hcode).trans ((extends_of_run hattributes).trans hlater)
  exact ⟨written, name, descriptor, attributes, {
    bytes_eq := by rw [List.append_assoc, List.append_assoc]
    code := ⟨afterCode, hpool ▸ hcode⟩
    name := Reader.reads_utf8 (Pool.yields_putUtf8 _ _ _ _ hname later
      ((extends_of_run hdescriptor).trans hcodeLater))
    descriptor := Reader.reads_utf8 (Pool.yields_putUtf8 _ _ _ _ hdescriptor later hcodeLater)
    attributes := (encodes_attributes hmethod hcode).during
      (.writingMethod method.name method.descriptor) _ _ _ hattributes later hlater hvalid
    others := value_ne_code hmethod (run_of_run_during hattributes) }⟩

/-- A method is read back from what it is written as, if its bytecode can be disassembled. -/
theorem exists_reads_of_write {method : Method} (hmethod : method.Unambiguous)
    {pool final later : Pool} {bytes : Bytes} (hrun : method.write.run pool = (.ok bytes, final))
    (hlater : final.Extends later) (hvalid : later.Valid)
    (hdecode : ∀ code bytecode, method.code = some code →
      (code.assemble.run (method.assemblyPool pool)).1 = .ok bytecode →
        ∃ decoded, Code.disassemble later bytecode = .ok decoded) :
    ∃ back, ReadAs later (method, method.assemblyPool pool) back ∧
      (Method.read later).Reads bytes back := by
  obtain ⟨written, name, descriptor, attributes, hstored⟩ :=
    exists_isStored_of_write hmethod hrun hlater hvalid
  have hothers := splitCodeFrom_eq later method.name method.descriptor hstored.others
  have hread : ∀ code, splitCodeFrom later method.name method.descriptor none []
      (written ++ method.attributes) = .ok (code, method.attributes) →
        (Method.read later).Reads bytes
          ⟨method.access, method.name, method.descriptor, code, method.attributes⟩ := by
    intro code hsplit
    rw [hstored.bytes_eq]
    refine .bind (.uint16 method.access) (.bind hstored.name (.bind hstored.descriptor ?_))
    exact .last (.during _ hstored.attributes) (.returning (.lift hsplit) rfl)
  obtain ⟨afterCode, hcode⟩ := hstored.code
  rcases cases_of_run_codeAttribute hcode with
    ⟨hnone, rfl⟩ | ⟨code, bytecode, hsome, hassemble, rfl⟩
  · refine ⟨method, .withoutCode hnone, ?_⟩
    have hback := hread none (hothers none [])
    rwa [← hnone] at hback
  · have hbytecode := congrArg Prod.fst hassemble
    obtain ⟨decoded, hdecoded⟩ := hdecode code bytecode hsome hbytecode
    refine ⟨_, .withCode hsome hbytecode hdecoded, hread (some decoded) ?_⟩
    rw [List.singleton_append, splitCodeFrom]
    dsimp only
    rw [Result.during_eq_ok_iff.2 hdecoded]
    exact hothers (some decoded) []

/-- The bytecode that the code of a method is assembled to in a pool can be disassembled with
another one. -/
def Decodes (final : Pool) (site : Method × Pool) : Prop :=
  ∀ code bytecode, site.1.code = some code → (code.assemble.run site.2).1 = .ok bytecode →
    ∃ decoded, Code.disassemble final bytecode = .ok decoded

theorem exists_readsMany_of_writeAll {methods : List Method}
    (hmethods : ∀ method ∈ methods, method.Unambiguous) {pool final later : Pool} {bytes : Bytes}
    (hrun : (writeAll Method.write methods).run pool = (.ok bytes, final))
    (hlater : final.Extends later) (hvalid : later.Valid)
    (hdecode : ∀ site ∈ sitesFrom methods pool, Decodes later site) :
    ∃ backs, List.Forall₂ (ReadAs later) (sitesFrom methods pool) backs ∧
      (Method.read later).ReadsMany bytes backs := by
  induction methods generalizing pool bytes with
  | nil =>
    cases hrun
    exact ⟨[], .nil, .nil⟩
  | cons method methods ih =>
    rw [writeAll_cons] at hrun
    obtain ⟨front, between, hfront, hrun⟩ := exists_of_run_bind hrun
    obtain ⟨others, last, hothers, hrun⟩ := exists_of_run_bind hrun
    cases hrun
    rw [sitesFrom, hfront] at hdecode ⊢
    obtain ⟨hsite, hsites⟩ := List.forall_mem_cons.1 hdecode
    obtain ⟨hmethod, hmethods⟩ := List.forall_mem_cons.1 hmethods
    obtain ⟨back, hback, hreads⟩ := exists_reads_of_write hmethod hfront
      ((extends_of_run hothers).trans hlater) hvalid hsite
    obtain ⟨backs, hbacks, hmany⟩ := ih hmethods hothers hsites
    exact ⟨back :: backs, .cons hback hbacks, .cons hreads hmany⟩

theorem map_fst_sitesFrom (methods : List Method) (pool : Pool) :
    (sitesFrom methods pool).map Prod.fst = methods := by
  induction methods generalizing pool with
  | nil => rfl
  | cons method methods ih => rw [sitesFrom, List.map_cons, ih]

end Method

/-! ### Class files -/

namespace ClassFile

variable {α : Type}

instance (name : ClassName) (part : ClassPart) (write : α → PoolM Bytes)
    [∀ value, Lawful (write value)] (values : List α) :
    Lawful (writePart name part write values) := by
  unfold writePart
  infer_instance

instance (file : ClassFile) : Lawful file.writeHead := by
  unfold writeHead
  infer_instance

instance (file : ClassFile) : Lawful file.writeBody := by
  unfold writeBody
  infer_instance

theorem encodes_writePart {name : ClassName} {part : ClassPart} {write : α → PoolM Bytes}
    [∀ value, Lawful (write value)] {read : Pool → Reader α} {values : List α}
    (hvalues : ∀ value ∈ values, Encodes (write value) read value) :
    Encodes (writePart name part write values) (fun pool => Reader.list16 (read pool)) values := by
  refine .bind (.lift fun count hcount _ =>
    ofCount_eq_ok_iff.1 (Result.during_eq_ok_iff.1 hcount)) fun count => ?_
  refine .bind (yields_writeAll hvalues) fun contents => ?_
  refine .pure fun later hcontents hcount hvalid => ?_
  rw [← hcount.2]
  exact (hcontents hvalid).list16 hcount.1

theorem succeeds_writePart {name : ClassName} {part : ClassPart} {write : α → PoolM Bytes}
    [∀ value, Lawful (write value)] {values : List α} {room size : Nat}
    (hcount : values.length < 256 ^ 2)
    (hvalues : ∀ value ∈ values, Succeeds room (write value) fun bytes => bytes.length ≤ size) :
    Succeeds (values.length * room) (writePart name part write values) fun _ => True := by
  refine .afterLift (Result.during_eq_ok_iff.2 (ofCount_eq_ok_iff.2 ⟨hcount, rfl⟩)) ?_
  exact (Succeeds.writeAll hvalues).bind fun contents _ => .pure trivial

/-- All attributes of a class, of its fields and of its methods can be told apart. -/
structure Unambiguous (file : ClassFile) : Prop where
  attributes : ∀ item ∈ file.attributes, item.Unambiguous .classScope
  fields : ∀ field ∈ file.fields, ∀ item ∈ field.attributes, item.Unambiguous .fieldScope
  methods : ∀ method ∈ file.methods, method.Unambiguous

/-- The methods with the pools that their code is assembled in, when the class file is written. -/
def sites (file : ClassFile) : List (Method × Pool) :=
  Method.sitesFrom file.methods (file.writeHead.run file.pool).2

/-- The pool with everything that is added to it when the class file is written. -/
def completedPool (file : ClassFile) : Pool :=
  (file.writeBody.run file.pool).2

theorem yields_writeHead {file : ClassFile} (hfile : file.Unambiguous) :
    Yields file.writeHead fun bytes later => later.Valid →
      ∃ name superClass interfaces fields,
        bytes = Bytes.ofUInt16 file.access ++ Bytes.ofUInt16 name ++ Bytes.ofUInt16 superClass
          ++ interfaces ++ fields ∧
        (Reader.className later).Reads (Bytes.ofUInt16 name) file.name ∧
        (Reader.optionalClassName later).Reads (Bytes.ofUInt16 superClass) file.superClass ∧
        (Reader.list16 (Reader.className later)).Reads interfaces file.interfaces ∧
        (Reader.list16 (Field.read later)).Reads fields file.fields := by
  refine .bind (Pool.yields_putClass file.name) fun name => ?_
  refine .bind (Pool.yields_putOptionalClass file.superClass) fun superClass => ?_
  refine .bind (encodes_writePart fun other _ => encodes_writeClass other) fun interfaces => ?_
  refine .bind (encodes_writePart fun field hmem => Field.encodes_write (hfile.fields field hmem))
    fun fields => ?_
  refine .pure fun later hfields hinterfaces hsuperClass hname hvalid => ?_
  exact ⟨name, superClass, interfaces, fields, rfl, Reader.reads_className hname,
    Reader.reads_lookUp (hsuperClass hvalid), hinterfaces hvalid, hfields hvalid⟩

/-- A class file that was written whole was written from its completed pool and its body. -/
theorem exists_of_write {file : ClassFile} {bytes : Bytes} (hwrite : file.write = ⟨bytes, none⟩) :
    ∃ body constants, file.writeBody.run file.pool = (.ok body, file.completedPool) ∧
      file.completedPool.write = ⟨constants, none⟩ ∧ bytes = file.header ++ constants ++ body := by
  unfold write at hwrite
  split at hwrite
  · cases hwrite
  · rename_i body pool hrun
    have hpool : file.completedPool = pool := by
      rw [completedPool, hrun]
    dsimp only at hwrite
    split at hwrite
    · cases hwrite
    · rename_i hnone
      cases hwrite
      refine ⟨body, pool.write.bytes, by rw [hpool, hrun], ?_, rfl⟩
      rw [hpool, ← hnone]

theorem reads_header {β : Type} {file : ClassFile} (hversion : file.version.isSupported)
    {next : Version → Reader β} {bytes : Bytes} {value : β}
    (hnext : (next file.version).Reads bytes value) :
    (Reader.uint32 >>= fun magic => do
      if magic != ClassFile.magic then
        Reader.fail (.wrongMagic magic)
      next (← readVersion)).Reads (file.header ++ bytes) value := by
  unfold header
  rw [List.append_assoc, List.append_assoc]
  refine .bind (.uint32 magic) ?_
  dsimp only
  rw [bne_self_eq_false, if_neg Bool.false_ne_true, ← List.append_assoc]
  refine .bind ?_ hnext
  refine .bind (.uint16 file.version.minor) (.last (.uint16 file.version.major) ?_)
  dsimp only
  rw [hversion, Bool.not_true, if_neg Bool.false_ne_true]
  exact .pure _

structure Parts where
  constants : Bytes
  name : UInt16
  superClass : UInt16
  interfaces : Bytes
  fields : Bytes
  methods : Bytes
  attributes : Bytes

/-- The parts that a class file is written as, and what each of them is read as. Methods are written
from one pool to another. -/
structure IsStored (file : ClassFile) (bytes : Bytes) (parts : Parts) (before after : Pool) :
    Prop where
  bytes_eq : bytes = file.header ++ (parts.constants ++ (Bytes.ofUInt16 file.access ++
    (Bytes.ofUInt16 parts.name ++ (Bytes.ofUInt16 parts.superClass ++ (parts.interfaces ++
    (parts.fields ++ ((Bytes.bigEndian 2 file.methods.length ++ parts.methods)
      ++ parts.attributes)))))))
  valid : file.completedPool.Valid
  constants : Pool.read.Reads parts.constants file.completedPool
  name : (Reader.className file.completedPool).Reads (Bytes.ofUInt16 parts.name) file.name
  superClass : (Reader.optionalClassName file.completedPool).Reads
    (Bytes.ofUInt16 parts.superClass) file.superClass
  interfaces : (Reader.list16 (Reader.className file.completedPool)).Reads parts.interfaces
    file.interfaces
  fields : (Reader.list16 (Field.read file.completedPool)).Reads parts.fields file.fields
  count : file.methods.length < 256 ^ 2
  methods : (writeAll Method.write file.methods).run before = (.ok parts.methods, after)
  sites : file.sites = Method.sitesFrom file.methods before
  later : after.Extends file.completedPool
  attributes : (Attribute.readList file.completedPool .classScope).Reads parts.attributes
    file.attributes

theorem exists_isStored_of_write {file : ClassFile} {bytes : Bytes} (hvalid : file.pool.Valid)
    (hfile : file.Unambiguous) (hwrite : file.write = ⟨bytes, none⟩) :
    ∃ parts before after, file.IsStored bytes parts before after := by
  obtain ⟨body, constants, hbody, hconstants, rfl⟩ := exists_of_write hwrite
  have hcompleted : file.completedPool.Valid := valid_of_run hvalid hbody
  obtain ⟨head, afterHead, hhead, hrun⟩ := exists_of_run_bind hbody
  obtain ⟨part, afterMethods, hpart, hrun⟩ := exists_of_run_bind hrun
  obtain ⟨attributes, last, hattributes, hrun⟩ := exists_of_run_bind hrun
  obtain ⟨count, between, hcount, hmethods⟩ := exists_of_run_bind hpart
  obtain ⟨contents, afterContents, hcontents, hmethods⟩ := exists_of_run_bind hmethods
  cases hmethods
  obtain ⟨hbytes, hlast⟩ := Prod.mk.inj hrun
  cases hbytes
  rw [show last = file.completedPool from hlast] at hattributes
  have hafterMethods : afterMethods.Extends file.completedPool := extends_of_run hattributes
  obtain ⟨name, superClass, interfaces, fields, rfl, hname, hsuperClass, hinterfaces, hfields⟩ :=
    yields_writeHead hfile _ _ _ hhead file.completedPool
      ((extends_of_run hpart).trans hafterMethods) hcompleted
  have hlength : file.methods.length < 256 ^ 2 ∧
      Bytes.bigEndian 2 file.methods.length = count := by
    have hok : Result.during (.countingPart .methods file.name)
        (Bytes.ofCount 2 file.methods.length) = .ok count := congrArg Prod.fst hcount
    exact ofCount_eq_ok_iff.1 (Result.during_eq_ok_iff.1 hok)
  exact ⟨⟨constants, name, superClass, interfaces, fields, contents, attributes⟩, between,
    afterMethods, {
    bytes_eq := by
      rw [hlength.2]
      simp only [List.append_assoc]
    valid := hcompleted
    constants := hcompleted.reads hconstants
    name := hname
    superClass := hsuperClass
    interfaces := hinterfaces
    fields := hfields
    count := hlength.1
    methods := hcontents
    sites := by
      have hbetween : afterHead = between := congrArg Prod.snd hcount
      rw [sites, hhead, ← hbetween]
    later := hafterMethods
    attributes := (Attribute.encodes_writeList_of_not_allowed hfile.attributes rfl).during
      (.writingClassAttributes file.name) _ _ _ hattributes file.completedPool (.refl _)
      hcompleted }⟩

/-- **A class file that was written** is read back, with its completed pool, if the bytecode of its
methods can be disassembled. -/
theorem exists_reads_of_write {file : ClassFile} {bytes : Bytes} (hvalid : file.pool.Valid)
    (hversion : file.version.isSupported) (hfile : file.Unambiguous)
    (hwrite : file.write = ⟨bytes, none⟩)
    (hdecode : ∀ site ∈ file.sites, Method.Decodes file.completedPool site) :
    ∃ methods, List.Forall₂ (Method.ReadAs file.completedPool) file.sites methods ∧
      ClassFile.read.Reads bytes { file with methods := methods, pool := file.completedPool } := by
  obtain ⟨parts, before, after, hstored⟩ := exists_isStored_of_write hvalid hfile hwrite
  rw [hstored.sites] at hdecode ⊢
  obtain ⟨methods, hreadAs, hmany⟩ := Method.exists_readsMany_of_writeAll hfile.methods
    hstored.methods hstored.later hstored.valid hdecode
  refine ⟨methods, hreadAs, ?_⟩
  have hlength : methods.length = file.methods.length := by
    rw [← hreadAs.length_eq, ← List.length_map Prod.fst, Method.map_fst_sitesFrom]
  have hmethods := hmany.list16 (hlength ▸ hstored.count)
  rw [hlength] at hmethods
  rw [hstored.bytes_eq]
  refine reads_header hversion (.bind hstored.constants (.bind (.uint16 file.access) ?_))
  refine .bind hstored.name (.bind hstored.superClass ?_)
  refine .bind (.during _ hstored.interfaces) (.bind (.during _ hstored.fields) ?_)
  exact .bind (.during _ hmethods) (.returning (.during _ hstored.attributes) rfl)

/-- **Writing and reading.** What is written of a class file is read back, to its end, as that class
file with its completed pool. Methods are read in order, with the code that their bytecode is
disassembled to, and everything in the pool is still where it was. -/
theorem exists_read_of_write {file : ClassFile} {bytes : Bytes} (hpool : file.pool.Built)
    (hversion : file.version.isSupported) (hfile : file.Unambiguous)
    (hwrite : file.write = ⟨bytes, none⟩)
    (hdecode : ∀ site ∈ file.sites, Method.Decodes file.completedPool site) :
    ∃ methods, ClassFile.read (.ofBytes bytes) =
        .ok ({ file with methods := methods, pool := file.completedPool }, ⟨bytes.length, []⟩) ∧
      file.sites.map Prod.fst = file.methods ∧
      List.Forall₂ (Method.ReadAs file.completedPool) file.sites methods ∧
      ∀ index entry, file.pool.get index = .ok entry →
        file.completedPool.get index = .ok entry := by
  obtain ⟨methods, hreadAs, hreads⟩ :=
    exists_reads_of_write hpool.valid hversion hfile hwrite hdecode
  refine ⟨methods, ?_, Method.map_fst_sitesFrom _ _, hreadAs, fun index entry hget => ?_⟩
  · have hread := hreads 0 []
    rwa [List.append_nil, Nat.zero_add] at hread
  · exact Pool.get_of_extends (extends_run file.writeBody file.pool) hget

end ClassFile

/-! ### A class file that can be written -/

namespace Code

variable {padding : Nat}

theorem framedLines_countdown :
    (countdown padding).framedLines = [(0, .same), (padding + 4, .same)] := by
  have hframed : (countdown padding).framedLines = (countdown padding).lines.zipIdx.filterMap
      fun entry => entry.1.frame.map (Prod.mk entry.2) := rfl
  have hnone : ((List.replicate padding (CodeLine.mk none none (.plain .nop))).zipIdx 3).filterMap
      (fun entry => entry.1.frame.map (Prod.mk entry.2)) = [] := by
    refine List.filterMap_eq_nil_iff.2 fun entry hentry => ?_
    rw [List.eq_of_mem_replicate (List.fst_mem_of_mem_zipIdx hentry)]
    rfl
  rw [hframed]
  simp [countdown, List.zipIdx_append, hnone, Nat.add_comm 3]

/-- What the countdown is assembled to, but for the offsets in it. -/
theorem shape_of_assemble_countdown {pool final : Pool} {bytecode : CodeAttribute}
    (hassemble : (countdown padding).assemble.run pool = (.ok bytecode, final)) :
    bytecode.code ≠ [] ∧ bytecode.code.length ≤ CodeAttribute.maxLength ∧
      (∃ start stop handler, bytecode.exceptionTable = [⟨start, stop, handler, none⟩]) ∧
      ∃ row first second, bytecode.attributes =
        [⟨AttributeKind.lineNumberTable.text, .lineNumberTable [row]⟩,
          ⟨AttributeKind.stackMapTable.text, .stackMapTable [⟨first, .same⟩, ⟨second, .same⟩]⟩] := by
  obtain ⟨operands, wide, offsets, layout, hlaid⟩ := exists_laidOut_of_assemble hassemble
  refine ⟨?_, ?_, ?_, ?_⟩
  · rw [← List.length_pos_iff, hlaid.length_code]
    exact hlaid.length_pos
  · rw [hlaid.length_code]
    exact hlaid.length_le
  · rw [hlaid.bytecode_eq]
    exact ⟨_, _, _, rfl⟩
  · rw [hlaid.bytecode_eq]
    dsimp only [bytecodeOf]
    rw [tablesIn, hlaid.framed_eq, framedLines_countdown]
    exact ⟨_, _, _, rfl⟩

theorem succeeds_write_countdown {pool final : Pool} {bytecode : CodeAttribute}
    (hassemble : (countdown padding).assemble.run pool = (.ok bytecode, final)) :
    Succeeds 2 bytecode.write fun bytes => bytes.length ≤ CodeAttribute.maxLength + 48 := by
  obtain ⟨hne, hle, ⟨start, stop, handler, htable⟩, row, first, second, hattributes⟩ :=
    shape_of_assemble_countdown hassemble
  have hentries : ∀ entry ∈ bytecode.exceptionTable,
      Succeeds 0 entry.write fun bytes => bytes.length ≤ 8 := by
    rw [htable]
    refine List.forall_mem_singleton.2 ?_
    exact fun pool _ _ => ⟨_, pool, rfl, Nat.le_refl _, Nat.le_refl 8⟩
  have hlines : Succeeds 0 (writeList 2 LineNumber.write [row]) fun bytes => bytes.length ≤ 8 := by
    refine .writeList (by simp) fun row _ => .pure (?_ : _ ≤ 6)
    simp only [List.length_append, Bytes.length_ofUInt16]
    decide
  have hframes : Succeeds 0 (StackMapFrame.writeList [⟨first, .same⟩, ⟨second, .same⟩])
      fun bytes => bytes.length ≤ 8 := by
    have hframe : ∀ delta, Succeeds 0 (StackMapFrame.write ⟨delta, .same⟩) fun bytes =>
        bytes.length ≤ 3 := by
      intro delta
      refine .pure ?_
      split
      · exact Nat.le_of_lt (show 1 < 3 by decide)
      · exact Nat.le_refl 3
    have hall : ∀ frame ∈ [StackMapFrame.mk first .same, ⟨second, .same⟩],
        Succeeds 0 frame.write fun bytes => bytes.length ≤ 3 :=
      List.forall_mem_cons.2 ⟨hframe first, List.forall_mem_singleton.2 (hframe second)⟩
    exact .afterLift (show StackMapFrame.checkAll _ = .ok () from rfl) (.writeList (by simp) hall)
  have hlinesName : (Text.ModifiedUtf8.encode AttributeKind.lineNumberTable.text).length < 65536 := by
    decide
  have hframesName : (Text.ModifiedUtf8.encode AttributeKind.stackMapTable.text).length < 65536 := by
    decide
  have hitems : ∀ item ∈ bytecode.attributes,
      Succeeds 1 (item.write .codeScope) fun bytes => bytes.length ≤ 14 := by
    rw [hattributes]
    refine List.forall_mem_cons.2 ⟨?_, List.forall_mem_singleton.2 ?_⟩
    · exact Attribute.succeeds_write rfl hlinesName (by decide) hlines
    · exact Attribute.succeeds_write rfl hframesName (by decide) hframes
  rw [hattributes] at hitems
  have hlist := Attribute.succeeds_writeList rfl (by simp) hitems
  rw [← hattributes] at hlist
  have hcount : bytecode.exceptionTable.length = 1 := by rw [htable]; rfl
  have hwrite := CodeAttribute.succeeds_write hne hle (by rw [hcount]; decide) hentries hlist
  rw [hcount, hattributes] at hwrite
  exact hwrite

end Code

namespace Method

def countdown (padding : Nat) : Method where
  access := 0x9
  name := .ofString "count"
  descriptor := .ofString "(I)V"
  code := some (Code.countdown padding)
  attributes := []

variable {padding : Nat}

theorem succeeds_codeAttribute_countdown (hpadding : padding ≤ 65000) :
    Succeeds 0 (countdown padding).codeAttribute fun written => ∃ bytecode,
      (Succeeds 2 bytecode.write fun bytes => bytes.length ≤ CodeAttribute.maxLength + 48) ∧
        written = [⟨AttributeKind.code.text, .code bytecode⟩] := by
  intro pool _ _
  obtain ⟨bytecode, hassemble⟩ := Code.exists_assemble_countdown hpadding
  refine ⟨_, pool, ?_, Nat.le_refl _, bytecode, Code.succeeds_write_countdown (hassemble pool), rfl⟩
  change (during (.encodingMethod _ _) (Code.countdown padding).assemble >>= fun bytecode =>
    pure (Attribute.ofValue? (.code bytecode)).toList).run pool = _
  rw [run_bind, run_during, hassemble]
  rfl

theorem succeeds_write_countdown (hpadding : padding ≤ 65000) :
    Succeeds 5 (countdown padding).write fun bytes =>
      bytes.length ≤ CodeAttribute.maxLength + 62 := by
  show Succeeds (1 + (1 + (0 + (3 + 0)))) _ _
  have hname : (Text.ModifiedUtf8.encode (.ofString "count")).length < 65536 := by decide
  have hdescriptor : (Text.ModifiedUtf8.encode (.ofString "(I)V")).length < 65536 := by decide
  refine (Succeeds.putUtf8 hname).bind fun name _ => ?_
  refine (Succeeds.putUtf8 hdescriptor).bind fun descriptor _ => ?_
  refine (succeeds_codeAttribute_countdown hpadding).bind fun written hwritten => ?_
  obtain ⟨bytecode, hbytecode, rfl⟩ := hwritten
  have hcode : (Text.ModifiedUtf8.encode AttributeKind.code.text).length < 65536 := by decide
  have hwrite : Succeeds 3 (Attribute.write .methodScope
      ⟨AttributeKind.code.text, .code bytecode⟩) fun bytes => bytes.length ≤ _ :=
    Attribute.succeeds_write rfl hcode (by decide) hbytecode
  have hlist := Attribute.succeeds_writeList rfl (by simp) (List.forall_mem_singleton.2 hwrite)
  refine (hlist.during _).bind fun attributes hattributes => .pure ?_
  rw [List.length_singleton] at hattributes
  simp only [List.length_append, Bytes.length_ofUInt16]
  omega

end Method

namespace ClassFile

def counter (padding : Nat) : ClassFile where
  version := ⟨52, 0⟩
  access := 0x21
  name := ⟨.ofString "Counter", by decide⟩
  superClass := some ⟨.ofString "java/lang/Object", by decide⟩
  interfaces := []
  fields := []
  methods := [.countdown padding]
  attributes := [⟨.ofString "Note", .unknown [7]⟩]
  pool := Pool.empty

variable {padding : Nat}

theorem unambiguous_counter : (counter padding).Unambiguous where
  attributes := by
    refine List.forall_mem_singleton.2 fun bytes _ => ?_
    decide
  fields := by
    intro field hfield
    cases hfield
  methods := by
    refine List.forall_mem_singleton.2 ⟨?_, ?_, ?_⟩
    · intro item hitem
      cases hitem
    · intro code hcode item hitem
      cases hcode
      cases hitem
    · intro item hitem
      cases hitem

theorem succeeds_writeHead_counter : Succeeds 4 (counter padding).writeHead fun _ => True := by
  have hsuperClass : Succeeds 2 (Pool.putOptional Pool.putClass (counter padding).superClass)
      fun _ => True :=
    .putClass (by decide)
  have hinterfaces : Succeeds 0 (writePart (counter padding).name .interfaces writeClass
      (counter padding).interfaces) fun _ => True :=
    fun pool _ _ => ⟨_, pool, rfl, Nat.le_refl _, trivial⟩
  have hfields : Succeeds 0 (writePart (counter padding).name .fields Field.write
      (counter padding).fields) fun _ => True :=
    fun pool _ _ => ⟨_, pool, rfl, Nat.le_refl _, trivial⟩
  have hname : (Text.ModifiedUtf8.encode (.ofString "Counter")).length < 65536 := by decide
  show Succeeds (2 + (2 + (0 + (0 + 0)))) _ _
  refine (Succeeds.putClass hname).bind fun name _ => hsuperClass.bind fun superClass _ => ?_
  exact hinterfaces.bind fun interfaces _ => hfields.bind fun fields _ => .pure trivial

theorem succeeds_writeBody_counter (hpadding : padding ≤ 65000) :
    Succeeds 10 (counter padding).writeBody fun _ => True := by
  have hmethods : Succeeds 5 (writePart (counter padding).name .methods Method.write
      (counter padding).methods) fun _ => True :=
    succeeds_writePart (by simp)
      (List.forall_mem_singleton.2 (Method.succeeds_write_countdown hpadding))
  have hnote : Succeeds 1 (Attribute.write .classScope ⟨.ofString "Note", .unknown [7]⟩) fun bytes =>
      bytes.length ≤ 1 + 6 :=
    Attribute.succeeds_write rfl (by decide) (by decide) (.pure (Nat.le_refl 1))
  have hattributes := Attribute.succeeds_writeList rfl (by simp) (List.forall_mem_singleton.2 hnote)
  show Succeeds (4 + (5 + (1 + 0))) _ _
  refine succeeds_writeHead_counter.bind fun head _ => hmethods.bind fun methods _ => ?_
  exact (hattributes.during _).bind fun attributes _ => .pure trivial

theorem exists_write_counter (hpadding : padding ≤ 65000) :
    ∃ bytes, (counter padding).write = ⟨bytes, none⟩ := by
  have hroom : Pool.empty.count + 10 ≤ Pool.maxCount := by decide
  obtain ⟨body, final, hbody, hcount, -⟩ :=
    succeeds_writeBody_counter hpadding (counter padding).pool Pool.valid_empty hroom
  have hwritable : final.Writable := writable_of_run Pool.writable_empty hbody
  obtain ⟨constants, hconstants⟩ := hwritable.exists_write (Nat.le_trans hcount hroom)
  refine ⟨(counter padding).header ++ constants ++ body, ?_⟩
  unfold write
  rw [hbody]
  dsimp only
  rw [hconstants]

theorem decodes_counter (hpadding : padding ≤ 65000) :
    ∀ site ∈ (counter padding).sites, Method.Decodes (counter padding).completedPool site := by
  refine List.forall_mem_singleton.2 ?_
  intro code bytecode hcode hassemble
  cases hcode
  obtain ⟨assembled, hall⟩ := Code.exists_assemble_countdown hpadding
  rw [hall] at hassemble
  cases hassemble
  exact Code.exists_disassemble_countdown (hall _)

theorem exists_read_counter : ∃ bytes methods, (counter 40000).write = ⟨bytes, none⟩ ∧
    ClassFile.read (.ofBytes bytes) =
      .ok ({ counter 40000 with methods := methods, pool := (counter 40000).completedPool },
        ⟨bytes.length, []⟩) ∧
    (counter 40000).sites.map Prod.fst = (counter 40000).methods ∧
    List.Forall₂ (Method.ReadAs (counter 40000).completedPool) (counter 40000).sites methods ∧
    ∀ index entry, (counter 40000).pool.get index = .ok entry →
      (counter 40000).completedPool.get index = .ok entry := by
  obtain ⟨bytes, hwrite⟩ := @exists_write_counter 40000 (by decide)
  obtain ⟨methods, hread⟩ :=
    exists_read_of_write .empty (by decide) unambiguous_counter hwrite (decodes_counter (by decide))
  exact ⟨bytes, methods, hwrite, hread⟩

end ClassFile

end JvmClass
