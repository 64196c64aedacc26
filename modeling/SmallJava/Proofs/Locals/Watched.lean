import SmallJava.Codegen.Package
import SmallJava.Proofs.Typing.Judgement

namespace SmallJava

/-- Faults where the condition does not hold. -/
def Gen.ensure (condition : GenState → Prop) [DecidablePred condition] (fault : InternalError) :
    Gen Unit := do
  if condition (← get) then pure () else throw fault

theorem Gen.ensure_of {condition : GenState → Prop} [DecidablePred condition] {fault : InternalError}
    {s : GenState} (h : condition s) : ensure condition fault s = .ok () s := by
  change (if condition s then pure () else throw fault : Gen Unit) s = _
  rw [if_pos h]
  rfl

/-- What looks on while code is generated. -/
structure Watcher where
  /-- Comes before the code of a statement, with the local variables that are in scope there. -/
  enter : Stmt → List SymbolId → Gen Unit
  /-- Comes after the code of a statement, with what was the next offset before it. -/
  leave : Stmt → Int → Gen Unit

namespace Watcher

/-- Does nothing. -/
def idle : Watcher where
  enter _ _ := pure ()
  leave _ _ := pure ()

/-- The code of a statement with what comes before and after it. -/
def around (watcher : Watcher) (stmt : Stmt) (locals : List SymbolId) (code : Gen Unit) :
    Gen Unit := do
  watcher.enter stmt locals
  let mark := (← get).nextLocal
  code
  watcher.leave stmt mark

@[simp]
theorem around_idle (stmt : Stmt) (locals : List SymbolId) (code : Gen Unit) :
    idle.around stmt locals code = code := by
  funext s
  change (code >>= fun _ => pure ()) s = code s
  rw [bind_pure_unit]

end Watcher

open Gen

namespace Stmt

mutual

/-- Code for a statement, while somebody looks on. In scope are the variables that the same
    block or one around it declared before, and those of the loops around it. -/
def genWatched (watcher : Watcher) (site : Site) (locals : List SymbolId) (stmt : Stmt) :
    Gen Unit :=
  watcher.around stmt locals <| match stmt with
  | block span stmts => do
    emit (·.setLine span.line)
    let mark := (← get).nextLocal
    genAllWatched watcher site locals stmts
    release mark
  | varDecl span var init => do
    emit (·.setLine span.line)
    declare var (init.genValue site)
  | assign span target value => do
    emit (·.setLine span.line)
    Gen.assign site target (value.genValue site)
  | indexAssign span target subscript value => do
    emit (·.setLine span.line)
    assignElement target (subscript.genPush site) (value.genPush site)
  | call span callee args => do
    emit (·.setLine span.line)
    callFor callee (Expr.genArgs site args)
  | .return span value => do
    emit (·.setLine span.line)
    returnWith site (value.map (·.genPush site))
  | ifElse span cond onTrue onFalse => do
    emit (·.setLine span.line)
    match onFalse with
    | none =>
      Gen.ifElse site (cond.genCond site) (fun site => onTrue.genWatched watcher site locals) none
    | some onFalse =>
      Gen.ifElse site (cond.genCond site) (fun site => onTrue.genWatched watcher site locals)
        (some fun site => onFalse.genWatched watcher site locals)
  | .while span cond body => do
    emit (·.setLine span.line)
    loop span.line (cond.genCond site.loop) (body.genWatched watcher site.loop locals) (pure ())
  | .for span init cond update body => do
    emit (·.setLine span.line)
    let mark := (← get).nextLocal
    genOptionWatched watcher site locals init
    loop span.line (loopCond site.loop cond)
      (body.genWatched watcher site.loop (locals ++ optionBinds init))
      (genOptionWatched watcher site.loop (locals ++ optionBinds init) update)
    release mark

def genOptionWatched (watcher : Watcher) (site : Site) (locals : List SymbolId) :
    Option Stmt → Gen Unit
  | none => pure ()
  | some stmt => stmt.genWatched watcher site locals

def genAllWatched (watcher : Watcher) (site : Site) (locals : List SymbolId) :
    List Stmt → Gen Unit
  | [] => pure ()
  | stmt :: rest => do
    stmt.genWatched watcher site locals
    genAllWatched watcher site (locals ++ stmt.binds) rest

end

mutual

/-- Code generation is what nobody disturbs. -/
theorem genWatched_idle (site : Site) (locals : List SymbolId) :
    (stmt : Stmt) → stmt.genWatched .idle site locals = stmt.gen site
  | block _ stmts => by simp only [genWatched, gen, Watcher.around_idle, genAllWatched_idle]
  | varDecl .. => by simp only [genWatched, gen, Watcher.around_idle]
  | assign .. => by simp only [genWatched, gen, Watcher.around_idle]
  | indexAssign .. => by simp only [genWatched, gen, Watcher.around_idle]
  | call .. => by simp only [genWatched, gen, Watcher.around_idle]
  | .return .. => by simp only [genWatched, gen, Watcher.around_idle]
  | ifElse _ _ onTrue none => by
    simp only [genWatched, gen, Watcher.around_idle, genWatched_idle _ _ onTrue]
  | ifElse _ _ onTrue (some onFalse) => by
    simp only [genWatched, gen, Watcher.around_idle, genWatched_idle _ _ onTrue,
      genWatched_idle _ _ onFalse]
  | .while _ _ body => by
    simp only [genWatched, gen, Watcher.around_idle, genWatched_idle _ _ body]
  | .for _ init _ update body => by
    simp only [genWatched, gen, Watcher.around_idle, genOptionWatched_idle _ _ init,
      genOptionWatched_idle _ _ update, genWatched_idle _ _ body]

theorem genOptionWatched_idle (site : Site) (locals : List SymbolId) :
    (stmt : Option Stmt) → genOptionWatched .idle site locals stmt = genOption site stmt
  | none => by simp only [genOptionWatched, genOption]
  | some stmt => by simp only [genOptionWatched, genOption, genWatched_idle _ _ stmt]

theorem genAllWatched_idle (site : Site) (locals : List SymbolId) :
    (stmts : List Stmt) → genAllWatched .idle site locals stmts = genAll site stmts
  | [] => by simp only [genAllWatched, genAll]
  | stmt :: rest => by
    simp only [genAllWatched, genAll, genWatched_idle _ _ stmt, genAllWatched_idle _ _ rest]

end

end Stmt

namespace MethodDef

/-- Code for a method, while somebody looks on. -/
def genWatched (watcher : Watcher) (options : Options) (method : MethodDef) : Gen Unit := do
  let symbol ← bound method.binding method.span
  emit (·.setLine method.span.line)
  setSlot symbol (← here).toOperand
  modify fun state => { state with nextLocal := linkDataSize, known := .empty }
  let site : Site := { folding := options.foldConstants, argCount := method.params.length }
  Stmt.genAllWatched watcher site [] method.body
  if method.returnType.isVoid && !Stmt.allReturn method.body then
    emit (·.returnWith 0 site.argCount)

theorem genWatched_idle (options : Options) (method : MethodDef) :
    method.genWatched .idle options = method.gen options := by
  simp only [genWatched, gen, Stmt.genAllWatched_idle]

def genAllWatched (watcher : Watcher) (options : Options) : List MethodDef → Gen Unit
  | [] => pure ()
  | method :: rest => do
    method.genWatched watcher options
    genAllWatched watcher options rest

theorem genAllWatched_idle (options : Options) (methods : List MethodDef) :
    genAllWatched .idle options methods = genAll options methods := by
  induction methods with
  | nil => rfl
  | cons method rest ih => simp only [genAllWatched, genAll, genWatched_idle, ih]

end MethodDef

namespace Package

/-- Code for an analysed package, while somebody looks on. -/
def genWatched (watcher : Watcher) (options : Options) (builtins : Builtins) (entry : SymbolId)
    (package : Package) : Gen Executable := do
  let statics ← layout
  prologue statics entry
  printlnBody builtins.println
  MethodDef.genAllWatched watcher options (package.classes.flatMap (·.methods))
  let entrySlot ← expectSlot entry
  let state ← get
  let code ← Gen.ofExcept (state.asm.finish state.table)
  pure { code, entry := Address.ofSlot entrySlot, relocations := state.asm.relocations }

/-- Generates a program from an analysed package, while somebody looks on. -/
def generateWatched (watcher : Watcher) (options : Options) (analysis : Analysis) (entry : SymbolId)
    (package : Package) : Except InternalError Executable × SymbolTable :=
  match package.genWatched watcher options analysis.builtins entry { table := analysis.table } with
  | .ok executable state => (.ok executable, state.table)
  | .error fault state => (.error fault, state.table)

theorem genWatched_idle (options : Options) (builtins : Builtins) (entry : SymbolId)
    (package : Package) :
    package.genWatched .idle options builtins entry = package.gen options builtins entry := by
  simp only [genWatched, gen, MethodDef.genAllWatched_idle]

/-- A watched generator that nobody disturbs is the generator. -/
theorem generateWatched_idle (options : Options) (analysis : Analysis) (entry : SymbolId)
    (package : Package) :
    package.generateWatched .idle options analysis entry =
      package.generate options analysis entry := by
  unfold generateWatched generate
  cases hgen : package.gen options analysis.builtins entry { table := analysis.table } <;>
    simp [genWatched_idle, hgen]

end Package

end SmallJava
