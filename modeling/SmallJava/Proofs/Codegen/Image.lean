import SmallJava.Codegen.Package
import SmallJava.Proofs.Signature

namespace SmallJava

namespace Instruction

def primitive (primitive : Primitive) : Instruction := ⟨.call, 0, .pb, primitive.code⟩

def literal (value : Int) : Instruction := ⟨.loadl, 0, .zr, value⟩

def load (r : Register) (d : Int) : Instruction := ⟨.load, 0, r, d⟩

def loadAddress (r : Register) (d : Int) : Instruction := ⟨.loada, 0, r, d⟩

def store (r : Register) (d : Int) : Instruction := ⟨.store, 0, r, d⟩

def push (count : Int) : Instruction := ⟨.push, 0, .zr, count⟩

def pop (count : Int) : Instruction := ⟨.pop, 0, .zr, count⟩

def returnWith (results args : Int) : Instruction := ⟨.return, results, .zr, args⟩

def halt : Instruction := ⟨.halt, 0, .zr, 0⟩

def jump (target : Address) : Instruction := ⟨.jump, 0, .cb, target.toOperand⟩

def jumpIf (value : Int) (target : Address) : Instruction := ⟨.jumpif, value, .cb, target.toOperand⟩

def call (entry : Int) : Instruction := ⟨.call, 0, .cb, entry⟩

def callInstance (entry : Int) : Instruction := ⟨.calli, 0, .cb, entry⟩

end Instruction

/-- A finished program: what stands at each address, what the declarations say,
and where each symbol is stored. -/
structure Image where
  fetch : Address → Option Instruction
  signature : Signature
  slot? : SymbolId → Option Int

def Image.Holds (im : Image) (a : Address) (instr : Instruction) : Prop := im.fetch a = some instr

/-- What is known of the value of an expression where it stands. -/
abbrev Folding := Expr → Option Word

-- In the relations below, the code of a construct starts at the first address and
-- ends before the second. Jumps and calls have their final targets.

section References

variable (im : Image)

/-- Code that pushes the value of a path. -/
inductive Reference.PushCode : Reference → Nat → Nat → Prop
  | this {annot a} (hload : im.Holds a (.loadAddress .ob 0)) : PushCode (.this annot) a (a + 1)
  | variable {annot name x r d a} (hbound : name.binding = some x)
      (hbase : (im.signature.kind? x).bind (·.base?) = some r) (hslot : im.slot? x = some d)
      (hload : im.Holds a (.load r d)) : PushCode (.ident annot name) a (a + 1)
  | length {annot owner name x a b} (hbound : name.binding = some x)
      (hkind : im.signature.kind? x = some .arrayLength) (howner : PushCode owner a b)
      (hlen : im.Holds b (.primitive .arraylen)) : PushCode (.member annot owner name) a (b + 1)
  | staticField {annot owner name x cls modifiers d a} (hbound : name.binding = some x)
      (hkind : im.signature.kind? x = some (.field cls modifiers))
      (hstatic : modifiers.isStatic = true) (hslot : im.slot? x = some d)
      (hload : im.Holds a (.load .sb d)) : PushCode (.member annot owner name) a (a + 1)
  | ownField {annot owner name x cls modifiers d a} (hbound : name.binding = some x)
      (hkind : im.signature.kind? x = some (.field cls modifiers))
      (hstatic : modifiers.isStatic = false) (hthis : owner.isThis = true)
      (hslot : im.slot? x = some d) (hload : im.Holds a (.load .ob d)) :
      PushCode (.member annot owner name) a (a + 1)
  | field {annot owner name x cls modifiers d a b} (hbound : name.binding = some x)
      (hkind : im.signature.kind? x = some (.field cls modifiers))
      (hstatic : modifiers.isStatic = false) (hthis : owner.isThis = false)
      (howner : PushCode owner a b) (hslot : im.slot? x = some d)
      (hoffset : im.Holds b (.literal d)) (hload : im.Holds (b + 1) (.primitive .fieldref)) :
      PushCode (.member annot owner name) a (b + 2)

/-- Code that prepares an assignment to a path. -/
inductive Reference.DestinationCode : Reference → Destination → Nat → Nat → Prop
  | variable {annot name x r d a} (hbound : name.binding = some x)
      (hbase : (im.signature.kind? x).bind (·.base?) = some r) (hslot : im.slot? x = some d) :
      DestinationCode (.ident annot name) (.register r d) a a
  | staticField {annot owner name x cls modifiers d a} (hbound : name.binding = some x)
      (hkind : im.signature.kind? x = some (.field cls modifiers))
      (hstatic : modifiers.isStatic = true) (hslot : im.slot? x = some d) :
      DestinationCode (.member annot owner name) (.register .sb d) a a
  | ownField {annot owner name x cls modifiers d a} (hbound : name.binding = some x)
      (hkind : im.signature.kind? x = some (.field cls modifiers))
      (hstatic : modifiers.isStatic = false) (hthis : owner.isThis = true)
      (hslot : im.slot? x = some d) :
      DestinationCode (.member annot owner name) (.register .ob d) a a
  | field {annot owner name x cls modifiers d a b} (hbound : name.binding = some x)
      (hkind : im.signature.kind? x = some (.field cls modifiers))
      (hstatic : modifiers.isStatic = false) (hthis : owner.isThis = false)
      (hslot : im.slot? x = some d) (howner : owner.PushCode im a b)
      (hoffset : im.Holds b (.literal d)) :
      DestinationCode (.member annot owner name) .field a (b + 1)

/-- Code that pushes the object of an instance call. -/
inductive Reference.ReceiverCode : Reference → Nat → Nat → Prop
  | explicit {annot owner name a b} (howner : owner.PushCode im a b) :
      ReceiverCode (.member annot owner name) a b
  | implicit {callee : Reference} {a} (hcallee : ∀ annot owner name, callee ≠ .member annot owner name)
      (hload : im.Holds a (.loadAddress .ob 0)) : ReceiverCode callee a (a + 1)

/-- Code of a call after its arguments. -/
inductive Reference.InvokeCode : Reference → SymbolId → Nat → Nat → Prop
  | static {callee : Reference} {method info entry a} (hbound : callee.binding = some method)
      (hkind : im.signature.kind? method = some (.method info))
      (hstatic : info.modifiers.isStatic = true) (hentry : im.slot? method = some entry)
      (hcall : im.Holds a (.call entry)) : InvokeCode callee method a (a + 1)
  | instance {callee : Reference} {method info entry a b} (hbound : callee.binding = some method)
      (hkind : im.signature.kind? method = some (.method info))
      (hstatic : info.modifiers.isStatic = false) (hentry : im.slot? method = some entry)
      (hreceiver : callee.ReceiverCode im a b) (hcall : im.Holds b (.callInstance entry)) :
      InvokeCode callee method a (b + 1)

end References

section Expressions

variable (im : Image) (fold : Folding)

mutual

/-- Code of an expression as a value, with what it leaves. -/
inductive Expr.ValueCode : Expr → Value → Nat → Nat → Prop
  | constant {expr word a} (hfold : fold expr = some word) : ValueCode expr (.known word) a a
  | unary {annot op operand a b} (hoperand : PushCode operand a b)
      (hop : im.Holds b (.primitive op.primitive)) :
      ValueCode (.unary annot op operand) .onStack a (b + 1)
  | binary {annot op left right a b c} (hfamily : op.isLogical = false)
      (hleft : PushCode left a b) (hright : PushCode right b c)
      (hop : im.Holds c (.primitive op.primitive)) :
      ValueCode (.binary annot op left right) .onStack a (c + 1)
  | leftDecides {annot op left right a} (hfamily : op.isLogical = true)
      (hfold : fold left = some (.ofBool op.decisive)) :
      ValueCode (.binary annot op left right) (.known (.ofBool op.decisive)) a a
  | rightRemains {annot op left right word value a b} (hfamily : op.isLogical = true)
      (hfold : fold left = some word) (hword : word ≠ .ofBool op.decisive)
      (hright : ValueCode right value a b) : ValueCode (.binary annot op left right) value a b
  | rightDecides {annot op left right a b} (hfamily : op.isLogical = true)
      (hleft : PushCode left a b) (hfold : fold right = some (.ofBool op.decisive))
      (hpop : im.Holds b (.pop 1)) :
      ValueCode (.binary annot op left right) (.known (.ofBool op.decisive)) a (b + 1)
  | leftRemains {annot op left right word a b} (hfamily : op.isLogical = true)
      (hleft : PushCode left a b) (hfold : fold right = some word)
      (hword : word ≠ .ofBool op.decisive) : ValueCode (.binary annot op left right) .onStack a b
  | logical {annot op left right a b c} (hfamily : op.isLogical = true)
      (hleft : PushCode left a b)
      (hshort : im.Holds b (.jumpIf (Word.ofBool op.decisive).toInt (c + 1)))
      (hright : PushCode right (b + 1) c) (hdone : im.Holds c (.jump (c + 2)))
      (hdecisive : im.Holds (c + 1) (.literal (Word.ofBool op.decisive).toInt)) :
      ValueCode (.binary annot op left right) .onStack a (c + 2)
  | choiceKnown {annot cond onTrue onFalse outcome a b t}
      (hcond : CondCode cond false (some outcome) a a t)
      (hchosen : PushCode (if outcome then onTrue else onFalse) a b) :
      ValueCode (.ternary annot cond onTrue onFalse) .onStack a b
  | choice {annot cond onTrue onFalse a b c d}
      (hcond : CondCode cond false none a b (c + 1)) (hTrue : PushCode onTrue b c)
      (hdone : im.Holds c (.jump d)) (hFalse : PushCode onFalse (c + 1) d) :
      ValueCode (.ternary annot cond onTrue onFalse) .onStack a d
  | ref {annot target a b} (htarget : target.PushCode im a b) :
      ValueCode (.ref annot target) .onStack a b
  | index {annot target subscript a b c} (htarget : target.PushCode im a b)
      (hsubscript : PushCode subscript b c) (hload : im.Holds c (.primitive .arrayref)) :
      ValueCode (.index annot target subscript) .onStack a (c + 1)
  | call {annot callee args method a b c} (hargs : ArgsCode args a b)
      (hinvoke : callee.InvokeCode im method b c) :
      ValueCode (.call annot callee args) .onStack a c
  | newObject {annot} {cls : Ident} {x size a} (hbound : cls.binding = some x)
      (hslot : im.slot? x = some size) (hheader : im.Holds a (.literal (-1)))
      (hsize : im.Holds (a + 1) (.literal size)) (hnew : im.Holds (a + 2) (.primitive .newobj)) :
      ValueCode (.newObject annot cls) .onStack a (a + 3)
  | newArray {annot elem size a b} (hsize : PushCode size a b)
      (hnew : im.Holds b (.primitive .newarr)) :
      ValueCode (.newArray annot elem size) .onStack a (b + 1)

/-- Code that pushes the value of an expression. -/
inductive Expr.PushCode : Expr → Nat → Nat → Prop
  | known {expr word a b} (hvalue : ValueCode expr (.known word) a b)
      (hliteral : im.Holds b (.literal word.toInt)) : PushCode expr a (b + 1)
  | onStack {expr a b} (hvalue : ValueCode expr .onStack a b) : PushCode expr a b

/-- Code of a condition: an outcome that is known without code, or code that jumps
to the last address on the outcome `when` and runs to its end on the other. -/
inductive Expr.CondCode : Expr → Bool → Option Bool → Nat → Nat → Nat → Prop
  | constant {expr when word a t} (hfold : fold expr = some word) :
      CondCode expr when (some word.isTrue) a a t
  | not {annot operand when outcome a b t} (hoperand : CondCode operand (!when) outcome a b t) :
      CondCode (.unary annot .not operand) when (outcome.map (!·)) a b t
  | either {annot op left right a b c t} (hfamily : op.isLogical = true)
      (hleft : JumpCode left op.decisive a b t) (hright : JumpCode right op.decisive b c t) :
      CondCode (.binary annot op left right) op.decisive none a c t
  | both {annot op left right a b c t} (hfamily : op.isLogical = true)
      (hleft : JumpCode left op.decisive a b c) (hright : JumpCode right (!op.decisive) b c t) :
      CondCode (.binary annot op left right) (!op.decisive) none a c t
  | test {expr when a b t} (hvalue : ValueCode expr .onStack a b)
      (hjump : im.Holds b (.jumpIf (Word.ofBool when).toInt t)) : CondCode expr when none a (b + 1) t

/-- Code that jumps on an outcome that may be known: always, never or by a test. -/
inductive Expr.JumpCode : Expr → Bool → Nat → Nat → Nat → Prop
  | always {expr when a t} (hcond : CondCode expr when (some when) a a t)
      (hjump : im.Holds a (.jump t)) : JumpCode expr when a (a + 1) t
  | never {expr when a t} (hcond : CondCode expr when (some !when) a a t) :
      JumpCode expr when a a t
  | test {expr when a b t} (hcond : CondCode expr when none a b t) : JumpCode expr when a b t

/-- Code that pushes arguments in order. -/
inductive Expr.ArgsCode : List Expr → Nat → Nat → Prop
  | nil {a} : ArgsCode [] a a
  | cons {arg rest a b c} (harg : PushCode arg a b) (hrest : ArgsCode rest b c) :
      ArgsCode (arg :: rest) a c

end

end Expressions

/-- What code generation keeps track of along a method: the offset of the next
local variable and the variables whose value is known. -/
structure Tracked where
  next : Int
  known : Dict SymbolId Word

/-- The values that code at a site may rely on. -/
def Site.relies (site : Site) (known : Dict SymbolId Word) : Dict SymbolId Word :=
  if site.inLoop then .empty else known

/-- What is known of expressions at a site. -/
def Site.fold (site : Site) (known : Dict SymbolId Word) : Folding :=
  Expr.constant? site.folding (site.relies known)

/-- The known values after an assignment to `target`. -/
def Site.track (site : Site) (target : Reference) (value : Value) (known : Dict SymbolId Word) :
    Dict SymbolId Word :=
  match target.binding, value with
  | none, _ => known
  | some x, .known word =>
    if !site.inBranch && !site.inLoop then known.insert x word else known.erase x
  | some x, .onStack => known.erase x

section Statements

variable (im : Image)

/-- Code that drops words; none is needed for no words. -/
inductive PopCode : Int → Nat → Nat → Prop
  | some {count a} (hcount : 0 < count) (hpop : im.Holds a (.pop count)) : PopCode count a (a + 1)
  | none {count a} (hcount : count ≤ 0) : PopCode count a a

/-- Code that stores the pushed value, with the values known afterwards. -/
inductive StoreCode (site : Site) (target : Reference) (value : Value)
    (known : Dict SymbolId Word) : Destination → Nat → Dict SymbolId Word → Prop
  | variable {d a} (hstore : im.Holds a (.store .lb d)) :
      StoreCode site target value known (.register .lb d) a (site.track target value known)
  | field {r d a} (hbase : r ≠ .lb) (hstore : im.Holds a (.store r d)) :
      StoreCode site target value known (.register r d) a known
  | otherField {a} (hstore : im.Holds a (.primitive .fieldupd)) :
      StoreCode site target value known .field a known

/-- Code of the test of a loop, which need not have a condition. -/
inductive TestCode (fold : Folding) :
    Option Expr → Bool → Option Bool → Nat → Nat → Nat → Prop
  | none {when a t} : TestCode fold none when (some true) a a t
  | some {cond when outcome a b t} (hcond : Expr.CondCode im fold cond when outcome a b t) :
      TestCode fold (some cond) when outcome a b t

/-- Code of the test after a round, which leads back to the start of the loop. -/
inductive BackCode (fold : Folding) : Option Expr → Nat → Nat → Nat → Prop
  | always {cond a start} (htest : TestCode im fold cond true (some true) a a start)
      (hjump : im.Holds a (.jump start)) : BackCode fold cond a (a + 1) start
  | never {cond a start} (htest : TestCode im fold cond true (some false) a a start) :
      BackCode fold cond a a start
  | test {cond a b start} (htest : TestCode im fold cond true none a b start) :
      BackCode fold cond a b start

mutual

/-- Code of a statement, with what is tracked before and after it. -/
inductive Stmt.Code : Site → Stmt → Tracked → Nat → Nat → Tracked → Prop
  | block {site span stmts φ a b c φ'} (hstmts : ListCode site stmts φ a b φ')
      (hpop : PopCode im (φ'.next - φ.next) b c) :
      Code site (.block span stmts) φ a c { φ' with next := φ.next }
  | varDeclKnown {site span} {var : LocalDef} {init x word φ a b} (hbound : var.binding = some x)
      (hslot : (im.signature.kind? x).isSome → im.slot? x = some φ.next)
      (hinit : init.ValueCode im (site.fold φ.known) (.known word) a b)
      (hliteral : im.Holds b (.literal word.toInt)) :
      Code site (.varDecl span var init) φ a (b + 1) ⟨φ.next + 1, φ.known.insert x word⟩
  | varDecl {site span} {var : LocalDef} {init x φ a b} (hbound : var.binding = some x)
      (hslot : (im.signature.kind? x).isSome → im.slot? x = some φ.next)
      (hinit : init.ValueCode im (site.fold φ.known) .onStack a b) :
      Code site (.varDecl span var init) φ a b ⟨φ.next + 1, φ.known.erase x⟩
  | assignKnown {site span target expr destination word φ a b c known}
      (htarget : target.DestinationCode im destination a b)
      (hvalue : expr.ValueCode im (site.fold φ.known) (.known word) b c)
      (hliteral : im.Holds c (.literal word.toInt))
      (hstore : StoreCode im site target (.known word) φ.known destination (c + 1) known) :
      Code site (.assign span target expr) φ a (c + 2) { φ with known }
  | assign {site span target expr destination φ a b c known}
      (htarget : target.DestinationCode im destination a b)
      (hvalue : expr.ValueCode im (site.fold φ.known) .onStack b c)
      (hstore : StoreCode im site target .onStack φ.known destination c known) :
      Code site (.assign span target expr) φ a (c + 1) { φ with known }
  | indexAssign {site span target subscript value φ a b c d}
      (htarget : target.PushCode im a b)
      (hsubscript : subscript.PushCode im (site.fold φ.known) b c)
      (hvalue : value.PushCode im (site.fold φ.known) c d)
      (hstore : im.Holds d (.primitive .arrayupd)) :
      Code site (.indexAssign span target subscript value) φ a (d + 1) φ
  | call {site span callee args method φ a b c d}
      (hargs : Expr.ArgsCode im (site.fold φ.known) args a b)
      (hinvoke : callee.InvokeCode im method b c)
      (hpop : PopCode im (if (im.signature.typeOf method).isVoid then 0 else 1) c d) :
      Code site (.call span callee args) φ a d φ
  | returnValue {site span value φ a b}
      (hvalue : value.PushCode im (site.fold φ.known) a b)
      (hreturn : im.Holds b (.returnWith 1 site.argCount)) :
      Code site (.return span (some value)) φ a (b + 1) φ
  | return {site span φ a} (hreturn : im.Holds a (.returnWith 0 site.argCount)) :
      Code site (.return span none) φ a (a + 1) φ
  | ifTrue {site span cond onTrue onFalse φ a b t φ'}
      (hcond : cond.CondCode im (site.fold φ.known) false (some true) a a t)
      (hTrue : Code site onTrue φ a b φ') : Code site (.ifElse span cond onTrue onFalse) φ a b φ'
  | ifFalse {site span cond onTrue onFalse φ a b t φ'}
      (hcond : cond.CondCode im (site.fold φ.known) false (some false) a a t)
      (hFalse : OptionCode site onFalse φ a b φ') :
      Code site (.ifElse span cond onTrue onFalse) φ a b φ'
  | ifOnly {site span cond onTrue φ a b c φ'}
      (hcond : cond.CondCode im (site.fold φ.known) false none a b c)
      (hTrue : Code site.branch onTrue φ b c φ') : Code site (.ifElse span cond onTrue none) φ a c φ'
  | ifElse {site span cond onTrue onFalse φ a b c d φ' φ''}
      (hcond : cond.CondCode im (site.fold φ.known) false none a b (c + 1))
      (hTrue : Code site.branch onTrue φ b c φ') (hdone : im.Holds c (.jump d))
      (hFalse : Code site.branch onFalse φ' (c + 1) d φ'') :
      Code site (.ifElse span cond onTrue (some onFalse)) φ a d φ''
  | while {site span cond body φ a b φ'}
      (hloop : LoopCode site.loop (some cond) body none φ a b φ') :
      Code site (.while span cond body) φ a b φ'
  | for {site span init cond update body φ a b c d φ' φ''}
      (hinit : OptionCode site init φ a b φ')
      (hloop : LoopCode site.loop cond body update φ' b c φ'')
      (hpop : PopCode im (φ''.next - φ.next) c d) :
      Code site (.for span init cond update body) φ a d { φ'' with next := φ.next }

/-- Code of a loop at the site of its rounds. -/
inductive Stmt.LoopCode :
    Site → Option Expr → Stmt → Option Stmt → Tracked → Nat → Nat → Tracked → Prop
  | skip {site cond body update φ a t}
      (htest : TestCode im (site.fold φ.known) cond false (some false) a a t) :
      LoopCode site cond body update φ a a φ
  | forever {site cond body update φ a b c d t φ' φ''}
      (htest : TestCode im (site.fold φ.known) cond false (some true) a a t)
      (hbody : Code site body φ a b φ') (hupdate : OptionCode site update φ' b c φ'')
      (hback : BackCode im (site.fold φ''.known) cond c d a) :
      LoopCode site cond body update φ a d φ''
  | test {site cond body update φ a start b c d φ' φ''}
      (htest : TestCode im (site.fold φ.known) cond false none a start d)
      (hbody : Code site body φ start b φ') (hupdate : OptionCode site update φ' b c φ'')
      (hback : BackCode im (site.fold φ''.known) cond c d start) :
      LoopCode site cond body update φ a d φ''

inductive Stmt.OptionCode : Site → Option Stmt → Tracked → Nat → Nat → Tracked → Prop
  | none {site φ a} : OptionCode site none φ a a φ
  | some {site stmt φ a b φ'} (hstmt : Code site stmt φ a b φ') : OptionCode site (some stmt) φ a b φ'

inductive Stmt.ListCode : Site → List Stmt → Tracked → Nat → Nat → Tracked → Prop
  | nil {site φ a} : ListCode site [] φ a a φ
  | cons {site stmt rest φ a b c φ' φ''} (hstmt : Code site stmt φ a b φ')
      (hrest : ListCode site rest φ' b c φ'') : ListCode site (stmt :: rest) φ a c φ''

end

end Statements

/-- The site of a method's body. -/
def MethodDef.site (options : Options) (method : MethodDef) : Site :=
  { folding := options.foldConstants, argCount := method.params.length }

section Programs

variable (im : Image) (options : Options)

/-- Code of a method, which starts with an empty frame. -/
inductive MethodDef.Code : MethodDef → Nat → Nat → Prop
  | falls {method : MethodDef} {x a b φ} (hbound : method.binding = some x)
      (hslot : (im.signature.kind? x).isSome → im.slot? x = some (Address.toOperand a))
      (hbody : Stmt.ListCode im (method.site options) method.body ⟨linkDataSize, .empty⟩ a b φ)
      (hvoid : method.returnType.isVoid = true) (hfalls : Stmt.allReturn method.body = false)
      (hreturn : im.Holds b (.returnWith 0 method.params.length)) : Code method a (b + 1)
  | returns {method : MethodDef} {x a b φ} (hbound : method.binding = some x)
      (hslot : (im.signature.kind? x).isSome → im.slot? x = some (Address.toOperand a))
      (hbody : Stmt.ListCode im (method.site options) method.body ⟨linkDataSize, .empty⟩ a b φ)
      (hreturns : method.returnType.isVoid = true → Stmt.allReturn method.body = true) :
      Code method a b

/-- Code of methods one after the other. -/
inductive MethodDef.ListCode : List MethodDef → Nat → Nat → Prop
  | nil {a} : ListCode [] a a
  | cons {method rest a b c} (hmethod : MethodDef.Code im options method a b)
      (hrest : ListCode rest b c) : ListCode (method :: rest) a c

/-- Code that reserves words; none is needed for no words. -/
inductive ReserveCode : Int → Nat → Nat → Prop
  | some {count a} (hcount : 0 < count) (hpush : im.Holds a (.push count)) :
      ReserveCode count a (a + 1)
  | none {count a} (hcount : count ≤ 0) : ReserveCode count a a

/-- Code of a program. After the room for the static fields, the entry method is
called with an empty array; then come `println` and the methods. -/
structure Package.Code (builtins : Builtins) (entry : SymbolId) (statics : Int) (package : Package)
    (a b : Nat) : Prop where
  reserve : ReserveCode im statics 0 a
  length : im.Holds a (.literal 0)
  array : im.Holds (a + 1) (.primitive .newarr)
  entry : ∃ start, im.slot? entry = some start ∧ im.Holds (a + 2) (.call start)
  halt : im.Holds (a + 3) .halt
  printlnSlot : (im.signature.kind? builtins.println).isSome →
    im.slot? builtins.println = some (Address.toOperand (a + 4 : Nat))
  printlnArg : im.Holds (a + 4) (.load .lb (-1))
  printlnPut : im.Holds (a + 5) (.primitive .putintnl)
  printlnReturn : im.Holds (a + 6) (.returnWith 0 1)
  methods : MethodDef.ListCode im options (package.classes.flatMap (·.methods)) (a + 7) b

end Programs

end SmallJava
