import SmallJava.Proofs.Codegen.Ranges
import SmallJava.Proofs.Flow.Program
import SmallJava.Proofs.Region.Statement

namespace SmallJava

/-- Where the body of a method stands. -/
abbrev Signature.contextOf (sig : Signature) (m : SymbolId) (info : MethodInfo) : Context :=
  ⟨sig, info.owner, info.modifiers.isStatic, sig.typeOf m, info.params⟩

namespace Image.Explains

variable {im : Image} {Γ : Context} {statics : Int} {uses : List Use} {a : Nat} {instr : Instruction}

/-- A static method has no instruction that knows an object. -/
theorem base_ne_object (h : im.Explains Γ statics uses a) (hholds : im.Holds a instr)
    (hstatic : Γ.isStatic = true) : instr.r ≠ .ob := by
  cases h with
  | other hfound hother =>
    obtain rfl := Option.some.inj (hfound.symm.trans hholds)
    intro hbase
    simp [Instruction.usesStorage, hbase] at hother
  | this hinstance =>
    rw [hstatic] at hinstance
    cases hinstance
  | load hregion hfound =>
    obtain rfl := Option.some.inj (hfound.symm.trans hholds)
    rintro rfl
    cases hregion with
    | own hinstance =>
      rw [hstatic] at hinstance
      cases hinstance
  | store hregion hfound =>
    obtain rfl := Option.some.inj (hfound.symm.trans hholds)
    rintro rfl
    cases hregion with
    | own hinstance =>
      rw [hstatic] at hinstance
      cases hinstance
  | fieldref _ _ hfound | fieldupd _ _ hfound | newobj _ hfound =>
    obtain rfl := Option.some.inj (hfound.symm.trans hholds)
    exact nofun

/-- Where loads and stores are explained, they address a word of the method. -/
theorem region (h : im.Explains Γ statics uses a) (hholds : im.Holds a instr)
    (hop : instr.op = .load ∨ instr.op = .store) : Γ.Region statics instr.r instr.d := by
  cases h with
  | other hfound hother =>
    obtain rfl := Option.some.inj (hfound.symm.trans hholds)
    obtain hop | hop := hop
    · simp [Instruction.usesStorage, hop] at hother
    · simp [Instruction.usesStorage, hop] at hother
  | load hregion hfound | store hregion hfound =>
    obtain rfl := Option.some.inj (hfound.symm.trans hholds)
    exact hregion
  | this _ hfound | fieldref _ _ hfound | fieldupd _ _ hfound | newobj _ hfound =>
    obtain rfl := Option.some.inj (hfound.symm.trans hholds)
    obtain hop | hop := hop
    · cases hop
    · cases hop

/-- Before a field is read, its offset was pushed. -/
theorem offset_of_fieldref (h : im.Explains Γ statics uses a)
    (hholds : im.Holds a (.primitive .fieldref)) : ∃ b, a = b + 1 ∧ im.OffsetAt Γ uses b := by
  cases h with
  | other hfound hother =>
    obtain rfl := Option.some.inj (hfound.symm.trans hholds)
    cases hother
  | fieldref hoffset hat => exact ⟨_, hat, hoffset⟩
  | this _ hfound | load _ hfound | store _ hfound | fieldupd _ _ hfound | newobj _ hfound =>
    cases Option.some.inj (hfound.symm.trans hholds)

/-- Before a field is updated, its offset and then the code of the value were pushed. -/
theorem offset_of_fieldupd (h : im.Explains Γ statics uses a)
    (hholds : im.Holds a (.primitive .fieldupd)) :
    ∃ b fold, im.OffsetAt Γ uses b ∧ ∃ value : Expr, value.PushCode im fold (b + 1) a := by
  cases h with
  | other hfound hother =>
    obtain rfl := Option.some.inj (hfound.symm.trans hholds)
    cases hother
  | fieldupd hoffset hvalue => exact ⟨_, _, hoffset, _, hvalue⟩
  | this _ hfound | load _ hfound | store _ hfound | fieldref _ _ hfound | newobj _ hfound =>
    cases Option.some.inj (hfound.symm.trans hholds)

/-- Before an object is made, its size was pushed. -/
theorem size_of_newobj (h : im.Explains Γ statics uses a)
    (hholds : im.Holds a (.primitive .newobj)) : im.SizeBefore Γ uses a := by
  cases h with
  | other hfound hother =>
    obtain rfl := Option.some.inj (hfound.symm.trans hholds)
    cases hother
  | newobj hsize => exact hsize
  | this _ hfound | load _ hfound | store _ hfound | fieldref _ _ hfound | fieldupd _ _ hfound =>
    cases Option.some.inj (hfound.symm.trans hholds)

end Image.Explains

namespace MethodDef

variable {im : Image} {options : Options} {method : MethodDef} {m : SymbolId} {info : MethodInfo}
  {statics : Int} {a b : Nat}

/-- Every instruction of a method is there for something that the body uses. -/
theorem Code.explained (h : method.Code im options a b)
    (htyped : method.WellTyped im.signature m info)
    (harr : im.Arranged (im.signature.contextOf m info) statics)
    (hvars : im.Holding (im.signature.contextOf m info) statics (info.params ++ [])) :
    im.Explained (im.signature.contextOf m info) statics (Stmt.allUses method.body) a b := by
  have hbody : ∀ {c φ}, Stmt.ListCode im (method.site options) method.body ⟨linkDataSize, .empty⟩ a c φ →
      im.Explained (im.signature.contextOf m info) statics (Stmt.allUses method.body) a c :=
    fun hbody => hbody.explained harr (Int.le_refl _) hvars htyped.body (List.Subset.refl _)
  cases h with
  | falls _ _ hcode _ _ hreturn => exact (hbody hcode).trans (hreturn.other rfl)
  | returns _ _ hcode => exact hbody hcode

/-- The code of methods in a row has no gaps. -/
theorem ListCode.exists_of_mem {methods : List MethodDef} (h : ListCode im options methods a b)
    {i : Nat} (hlo : a ≤ i) (hhi : i < b) :
    ∃ method ∈ methods, ∃ s e, method.Code im options s e ∧ s ≤ i ∧ i < e := by
  induction h with
  | nil => omega
  | @cons method rest a c b hmethod _ ih =>
    obtain hlt | hle := Nat.lt_or_ge i c
    · exact ⟨method, List.mem_cons_self, a, c, hmethod, hlo, hlt⟩
    · obtain ⟨found, hmem, hfound⟩ := ih hle hhi
      exact ⟨found, List.mem_cons_of_mem _ hmem, hfound⟩

end MethodDef

namespace Package

variable {package package' : Package} {analysis : Analysis} {log : Diagnostic.Log} {options : Options}
  {entry : SymbolId} {executable : Executable} {laidOut table : SymbolTable} {statics : Int}
  {m : SymbolId} {info : MethodInfo}

/-- After the layout, all that a method may name is stored where it may address it. -/
theorem WellTyped.arranged {strict plain : Bool} (h : package.WellTyped strict plain analysis)
    (hlayout : SlotWriter.layout analysis.table = .ok statics laidOut)
    (hassigned : SymbolTable.Assigned laidOut table)
    (hkind : analysis.table.kind? m = some (.method info)) :
    (executable.image table).Arranged (table.signature.contextOf m info) statics ∧
      (executable.image table).Holding (table.signature.contextOf m info) statics
        (info.params ++ []) := by
  have hlaidOut := h.table.laidOut_of_layout hlayout
  have hsig : table.signature = analysis.table.signature :=
    hassigned.signature.trans hlaidOut.assigned.signature
  rw [hsig]
  refine ⟨⟨hsig.symm, ?_, ?_, ?_⟩, ?_⟩
  · intro x cls modifiers d hkind hstatic hslot
    obtain ⟨d', hslot', hbounds⟩ := hlaidOut.fields x cls modifiers hkind
    obtain rfl := Option.some.inj ((hassigned.slots x d' hslot').symm.trans hslot)
    exact hbounds hstatic
  · intro x cls modifiers d hkind hstatic hslot
    obtain ⟨cinfo, hcls⟩ := h.table.fields.owner x _ cls hkind rfl
    obtain ⟨-, hfields⟩ := h.table.instances hlayout hcls
    obtain ⟨d', hslot', hbounds⟩ := hfields x modifiers hkind hstatic
    obtain rfl := Option.some.inj ((hassigned.slots x d' hslot').symm.trans hslot)
    exact hbounds
  · intro c cinfo d hcls hslot
    obtain ⟨hsize, -⟩ := h.table.instances hlayout hcls
    exact (Option.some.inj ((hassigned.slots c _ hsize).symm.trans hslot)).symm
  · intro x hmem d hslot
    rw [List.append_nil] at hmem
    obtain ⟨i, hget⟩ := List.mem_iff_getElem?.1 hmem
    have hlt := (List.getElem?_eq_some_iff.1 hget).1
    have hparam := hassigned.slots x _ (hlaidOut.params m info hkind i x hget)
    obtain rfl : (i - info.params.length : Int) = d := Option.some.inj (hparam.symm.trans hslot)
    refine .param ?_ ?_
    · dsimp only
      omega
    · omega

/-- The instructions of a method of an accepted program are explained. -/
theorem explained_of_code {strict plain : Bool} (h : package.WellTyped strict plain analysis)
    (hlayout : SlotWriter.layout analysis.table = .ok statics laidOut)
    (hassigned : SymbolTable.Assigned laidOut table) {method : MethodDef}
    (hmem : method ∈ package.methods) {s e : Nat}
    (hcode : method.Code (executable.image table) options s e) :
    ∃ m info, method.WellTyped table.signature m info ∧
      table.startOf method = some (Address.toOperand s) ∧
        (executable.image table).Explained (table.signature.contextOf m info) statics
          (Stmt.allUses method.body) s e := by
  obtain ⟨m, info, htyped⟩ := h.methods method hmem
  have hsig : table.signature = analysis.table.signature :=
    hassigned.signature.trans (SlotWriter.assigned_of_layout hlayout).signature
  have hkind := htyped.kind
  rw [← hsig] at htyped
  refine ⟨m, info, htyped, ?_, ?_⟩
  · rw [SymbolTable.startOf, htyped.bound, Option.bind_some]
    exact hcode.slot_toOperand htyped
  · obtain ⟨harr, hvars⟩ := h.arranged hlayout hassigned hkind
    exact hcode.explained htyped harr hvars

/-- What stands before the methods uses no storage, apart from the argument of `println`. -/
theorem Code.before_methods {im : Image} {builtins : Builtins} {a b : Nat}
    (h : package.Code im options builtins entry statics a b) {i : Nat} (hlt : i < a + 7)
    {instr : Instruction} (hholds : im.Holds i instr) :
    instr.usesStorage = false ∨ instr = .load .lb (-1) := by
  have hother : ∀ {j found}, im.Holds j found → i = j → found.usesStorage = false →
      instr.usesStorage = false ∨ instr = .load .lb (-1) := by
    rintro j found hfound rfl hfree
    obtain rfl := Option.some.inj (hfound.symm.trans hholds)
    exact .inl hfree
  obtain hlt | rfl | rfl | rfl | rfl | rfl | rfl | rfl : i < a ∨ i = a ∨ i = a + 1 ∨ i = a + 2 ∨
      i = a + 3 ∨ i = a + 4 ∨ i = a + 5 ∨ i = a + 6 := by omega
  · cases h.reserve with
    | some _ hpush => exact hother hpush (by omega) rfl
    | none => omega
  · exact hother h.length rfl rfl
  · exact hother h.array rfl rfl
  · obtain ⟨start, -, hcall⟩ := h.entry
    exact hother hcall rfl rfl
  · exact hother h.halt rfl rfl
  · exact .inr (Option.some.inj (h.printlnArg.symm.trans hholds)).symm
  · exact hother h.printlnPut rfl rfl
  · exact hother h.printlnReturn rfl rfl

/-- Static fields are read and written below the number of words that the program reserves. -/
theorem Code.static_lt {strict plain : Bool} {builtins : Builtins} {a : Nat}
    (h : package.WellTyped strict plain analysis)
    (hlayout : SlotWriter.layout analysis.table = .ok statics laidOut)
    (hassigned : SymbolTable.Assigned laidOut table)
    (hcode : package.Code (executable.image table) options builtins entry statics a
      executable.code.size)
    {i : Nat} {instr : Instruction} (hget : executable.code.get? i = some instr)
    (hop : instr.op = .load ∨ instr.op = .store) (hbase : instr.r = .sb) :
    executable.code.get? 0 = some (.push statics) ∧ 0 ≤ instr.d ∧ instr.d < statics := by
  have hhi : i < executable.code.size := SmallJava.Code.lt_size_of_get? hget
  obtain hlt | hle := Nat.lt_or_ge i (a + 7)
  · obtain hfree | rfl := hcode.before_methods hlt hget
    · obtain hop | hop := hop
      · simp [Instruction.usesStorage, hop] at hfree
      · simp [Instruction.usesStorage, hop] at hfree
    · cases hbase
  · obtain ⟨method, hmem, s, e, hmethod, hlo, hhi⟩ := hcode.methods.exists_of_mem hle hhi
    obtain ⟨m, info, -, -, hexplained⟩ := explained_of_code h hlayout hassigned hmem hmethod
    have hregion := (hexplained i hlo hhi).region hget hop
    rw [hbase] at hregion
    cases hregion with
    | static hlo hhi =>
      refine ⟨?_, hlo, hhi⟩
      cases hcode.reserve with
      | some _ hpush => exact hpush
      | none hcount => omega

/-- Static methods never touch the object base: no instruction of a static method uses the
    register `OB`, nor does one before the methods. -/
theorem static_code_avoids_object
    (hcheck : package.check .any = (.ok (package', analysis), log))
    (hgen : package'.generate options analysis entry = (.ok executable, table)) :
    (∃ start, analysis.codeEnd? options entry [] = some start ∧
      ∀ a instr, a < start → executable.code.get? a = some instr → instr.r ≠ .ob) ∧
    ∀ before method after, package'.methods = before ++ method :: after →
      method.modifiers.isStatic = true →
        ∃ s e, table.startOf method = some (Address.toOperand s) ∧
          analysis.codeEnd? options entry before = some s ∧
            analysis.codeEnd? options entry (before ++ [method]) = some e ∧
              ∀ a instr, s ≤ a → a < e → executable.code.get? a = some instr → instr.r ≠ .ob := by
  have htyped : package'.WellTyped false false analysis :=
    wellTyped_of_check hcheck (package.disciplined nofun nofun)
  obtain ⟨statics, start, laidOut, hlayout, hassigned, hstart, hcode⟩ := generate_start hgen
  refine ⟨⟨_, hstart, fun a instr hlt hget => ?_⟩, fun before method after hmethods hstatic => ?_⟩
  · obtain hfree | rfl := hcode.before_methods hlt hget
    · intro hbase
      simp [Instruction.usesStorage, hbase] at hfree
    · exact nofun
  · obtain ⟨s, e, hs, he, -, hmethod⟩ := generate_range hgen hmethods
    obtain ⟨m, info, hwell, hslot, hexplained⟩ :=
      explained_of_code htyped hlayout hassigned (by rw [hmethods]; simp) hmethod
    refine ⟨s, e, hslot, hs, he, fun a instr hlo hhi hget => ?_⟩
    refine (hexplained a hlo hhi).base_ne_object hget ?_
    exact (congrArg Modifiers.isStatic hwell.modifiers).trans hstatic

end Package

/-- The instructions of a method between two addresses use storage as it is laid out: a field of
    the current object is one of the instance fields of the method's class, a word of the frame
    is a parameter or comes after the link data, the offset in an object is that of an instance
    field of its class, and a new object has room for the instance fields of its class. -/
structure Image.KeepsRegions (im : Image) (Γ : Context) (uses : List Use) (s e : Nat) : Prop where
  own : ∀ a instr, s ≤ a → a < e → im.Holds a instr → instr.op = .load ∨ instr.op = .store →
    instr.r = .ob → 0 ≤ instr.d ∧ instr.d < (Γ.sig.instanceFields Γ.cls).length
  frame : ∀ a instr, s ≤ a → a < e → im.Holds a instr → instr.op = .load ∨ instr.op = .store →
    instr.r = .lb → (-(Γ.params.length : Int) ≤ instr.d ∧ instr.d ≤ -1) ∨ 3 ≤ instr.d
  fieldref : ∀ a, s ≤ a → a < e → im.Holds a (.primitive .fieldref) →
    ∃ b, a = b + 1 ∧ im.OffsetAt Γ uses b
  fieldupd : ∀ a, s ≤ a → a < e → im.Holds a (.primitive .fieldupd) →
    ∃ b fold, im.OffsetAt Γ uses b ∧ ∃ value : Expr, value.PushCode im fold (b + 1) a
  newobj : ∀ a, s ≤ a → a < e → im.Holds a (.primitive .newobj) → im.SizeBefore Γ uses a

/-- Code whose instructions are all explained keeps to the regions of its method. -/
theorem Image.Explained.keepsRegions {im : Image} {Γ : Context} {statics : Int} {uses : List Use}
    {s e : Nat} (h : im.Explained Γ statics uses s e) : im.KeepsRegions Γ uses s e where
  own := by
    intro a instr hlo hhi hholds hop hbase
    have hregion := (h a hlo hhi).region hholds hop
    rw [hbase] at hregion
    cases hregion with
    | own _ hlo hhi => exact ⟨hlo, hhi⟩
  frame := by
    intro a instr hlo hhi hholds hop hbase
    have hregion := (h a hlo hhi).region hholds hop
    rw [hbase] at hregion
    cases hregion with
    | param hlo hhi => exact .inl ⟨hlo, hhi⟩
    | «local» hlo => exact .inr hlo
  fieldref := fun a hlo hhi hholds => (h a hlo hhi).offset_of_fieldref hholds
  fieldupd := fun a hlo hhi hholds => (h a hlo hhi).offset_of_fieldupd hholds
  newobj := fun a hlo hhi hholds => (h a hlo hhi).size_of_newobj hholds

namespace Package

variable {package package' : Package} {analysis : Analysis} {log : Diagnostic.Log} {options : Options}
  {entry : SymbolId} {executable : Executable} {table : SymbolTable}

/-- Every storage operand addresses its own region: static fields lie below the number of words
    that the first instruction reserves, and each method keeps to the regions of its class and
    its frame. Before the methods, nothing but the argument of `println` is addressed. -/
theorem storage_in_regions
    (hcheck : package.check .any = (.ok (package', analysis), log))
    (hgen : package'.generate options analysis entry = (.ok executable, table)) :
    (∀ a instr, executable.code.get? a = some instr → instr.op = .load ∨ instr.op = .store →
      instr.r = .sb →
        ∃ s, executable.code.get? 0 = some (.push s) ∧ 0 ≤ instr.d ∧ instr.d < s) ∧
    (∃ start, analysis.codeEnd? options entry [] = some start ∧ ∀ a instr, a < start →
      executable.code.get? a = some instr → instr.usesStorage = false ∨ instr = .load .lb (-1)) ∧
    ∀ before method after, package'.methods = before ++ method :: after →
      ∃ m info s e, method.binding = some m ∧ table.kind? m = some (.method info) ∧
        table.slot? m = some (Address.toOperand s) ∧
          analysis.codeEnd? options entry before = some s ∧
            analysis.codeEnd? options entry (before ++ [method]) = some e ∧
              (executable.image table).KeepsRegions (table.signature.contextOf m info)
                (Stmt.allUses method.body) s e := by
  have htyped : package'.WellTyped false false analysis :=
    wellTyped_of_check hcheck (package.disciplined nofun nofun)
  obtain ⟨statics, start, laidOut, hlayout, hassigned, hstart, hcode⟩ := generate_start hgen
  refine ⟨fun a instr hget hop hbase => ?_, ⟨_, hstart, fun a instr hlt hget => ?_⟩,
    fun before method after hmethods => ?_⟩
  · exact ⟨statics, Code.static_lt htyped hlayout hassigned hcode hget hop hbase⟩
  · exact hcode.before_methods hlt hget
  · obtain ⟨s, e, hs, he, -, hmethod⟩ := generate_range hgen hmethods
    obtain ⟨m, info, hwell, hslot, hexplained⟩ :=
      explained_of_code htyped hlayout hassigned (by rw [hmethods]; simp) hmethod
    rw [SymbolTable.startOf, hwell.bound, Option.bind_some] at hslot
    exact ⟨m, info, s, e, hwell.bound, hwell.kind, hslot, hs, he, hexplained.keepsRegions⟩

/-- A program with fields of all kinds: `copy` takes the number of another object and counts with
    a static field, and `main` copies between two new objects. -/
def copying : Package where
  classes := [{
    name := "Cell"
    fields := [
      { modifiers := {}, type := .int {}, name := "spare" },
      { modifiers := { isStatic := true }, type := .int {}, name := "copies" },
      { modifiers := {}, type := .int {}, name := "number" }]
    methods := [{
      modifiers := {}
      returnType := .void {}
      name := "copy"
      params := [{ type := .named {} "Cell", name := "other" }]
      body := [
        .assign {} (.ofPath "number") (.ref {} (.ofPath "other.number")),
        .assign {} (.ofPath "other.spare") (.ref {} (.ofPath "this.number")),
        .assign {} (.ofPath "copies")
          (.binary {} .add (.ref {} (.ofPath "copies")) (.int {} 1))] }] }, {
    name := "Main"
    fields := []
    methods := [.main [
      .varDecl {} { type := .named {} "Cell", name := "cell" } (.newObject {} { name := "Cell" }),
      .call {} (.ofPath "cell.copy") [.newObject {} { name := "Cell" }],
      .println (.ref {} (.ofPath "Cell.copies"))]] }]

/-- With either option, `copying` is accepted, and of its methods `main` is static. -/
theorem copying_compiles (options : Options) :
    ∃ package' analysis log entry executable table copy main,
      copying.check .any = (.ok (package', analysis), log) ∧
        package'.generate options analysis entry = (.ok executable, table) ∧
          package'.methods = [copy, main] ∧ main.modifiers.isStatic = true := by
  have hrun : ∀ folding : Bool, ((copying.check .any).1.toOption.any fun checked =>
      checked.2.entry.any fun entry =>
        (checked.1.generate ⟨folding⟩ checked.2 entry).1.toOption.any fun _ =>
          decide (checked.1.methods.map (·.modifiers.isStatic) = [false, true])) = true := by
    decide +kernel
  obtain ⟨⟨package', analysis⟩, log, hcheck, hrun⟩ := exists_ok_of_any (hrun options.foldConstants)
  obtain ⟨entry, -, hrun⟩ := (Option.any_eq_true ..).1 hrun
  obtain ⟨executable, table, hgen, hrun⟩ := exists_ok_of_any hrun
  obtain ⟨copy, rest, hmethods, -, hrest⟩ := List.map_eq_cons_iff.1 (of_decide_eq_true hrun)
  obtain ⟨main, none, hrest, hstatic, hnone⟩ := List.map_eq_cons_iff.1 hrest
  obtain rfl := List.map_eq_nil_iff.1 hnone
  exact ⟨_, _, _, _, _, _, copy, main, hcheck, hgen, by rw [hmethods, hrest], hstatic⟩

/-- What `main` calls on its object runs on that object, but `main` itself has none. -/
theorem static_main_of_copying :
    ∃ package' analysis log entry executable table copy main,
      copying.check .any = (.ok (package', analysis), log) ∧
        package'.generate {} analysis entry = (.ok executable, table) ∧
          package'.methods = [copy] ++ main :: [] ∧ main.modifiers.isStatic = true ∧
            ∃ s e, table.startOf main = some (Address.toOperand s) ∧
              analysis.codeEnd? {} entry [copy] = some s ∧
                analysis.codeEnd? {} entry ([copy] ++ [main]) = some e ∧
                  ∀ a instr, s ≤ a → a < e → executable.code.get? a = some instr →
                    instr.r ≠ .ob := by
  obtain ⟨package', analysis, log, entry, executable, table, copy, main, hcheck, hgen, hmethods,
    hstatic⟩ := copying_compiles {}
  obtain ⟨-, hmain⟩ := static_code_avoids_object hcheck hgen
  exact ⟨_, _, _, _, _, _, _, _, hcheck, hgen, hmethods, hstatic, hmain [copy] main [] hmethods hstatic⟩

/-- In `copy`, fields of two objects and a static field meet. -/
theorem copying_in_regions :
    ∃ package' analysis log entry executable table copy main,
      copying.check .any = (.ok (package', analysis), log) ∧
        package'.generate {} analysis entry = (.ok executable, table) ∧
          package'.methods = [] ++ copy :: [main] ∧
            ∃ m info s e, copy.binding = some m ∧ table.kind? m = some (.method info) ∧
              table.slot? m = some (Address.toOperand s) ∧
                analysis.codeEnd? {} entry [] = some s ∧
                  analysis.codeEnd? {} entry ([] ++ [copy]) = some e ∧
                    (executable.image table).KeepsRegions (table.signature.contextOf m info)
                      (Stmt.allUses copy.body) s e := by
  obtain ⟨package', analysis, log, entry, executable, table, copy, main, hcheck, hgen, hmethods, -⟩ :=
    copying_compiles {}
  obtain ⟨-, -, hregions⟩ := storage_in_regions hcheck hgen
  exact ⟨_, _, _, _, _, _, _, _, hcheck, hgen, hmethods, hregions [] copy [main] hmethods⟩

end Package

end SmallJava
