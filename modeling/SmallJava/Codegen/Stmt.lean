import SmallJava.Codegen.Expr
import SmallJava.Syntax.Stmt

namespace SmallJava

namespace Gen

/-- Drops the local variables declared since the next one had offset `mark`. -/
def release (mark : Int) : Gen Unit := do
  let count := (← get).nextLocal - mark
  emit (·.pop count)
  modify fun state => { state with nextLocal := mark }

def learn (symbol : SymbolId) (word : Word) : Gen Unit :=
  modify fun state => { state with known := state.known.insert symbol word }

def forget (symbol : SymbolId) : Gen Unit :=
  modify fun state => { state with known := state.known.erase symbol }

/-- Gives a local variable the next offset and its initial value. -/
def declare (var : LocalDef) (init : Gen Value) : Gen Unit := do
  let symbol ← bound var.binding var.span
  setSlot symbol (← get).nextLocal
  modify fun state => { state with nextLocal := state.nextLocal + 1 }
  match ← init with
  | .known word => do
    emit (·.literal word.toInt)
    learn symbol word
  | .onStack => forget symbol

/-- Keeps track of a variable after an assignment to it. One that may be skipped
    or run again leaves its value unknown. -/
def track (site : Site) (target : Reference) (value : Value) : Gen Unit :=
  match target.binding, value with
  | none, _ => pure ()
  | some symbol, .known word =>
    if !site.inBranch && !site.inLoop then learn symbol word else forget symbol
  | some symbol, .onStack => forget symbol

def assign (site : Site) (target : Reference) (value : Gen Value) : Gen Unit := do
  let destination ← target.destination
  let value ← value
  pushed (pure value)
  match destination with
  | .register r d => do
    emit (·.store r d)
    if r = .lb then track site target value
  | .field => emit (·.primitive .fieldupd)

def assignElement (target : Reference) (subscript value : Gen Unit) : Gen Unit := do
  target.push
  subscript
  value
  emit (·.primitive .arrayupd)

/-- A call for its effect: the result is dropped if there is one. -/
def callFor (callee : Reference) (args : Gen Unit) : Gen Unit := do
  let method ← call callee args
  if !((← table).typeOf method).isVoid then emit (·.pop 1)

def returnWith (site : Site) (value : Option (Gen Unit)) : Gen Unit := do
  match value with
  | some value =>
    value
    emit (·.returnWith 1 site.argCount)
  | none => emit (·.returnWith 0 site.argCount)

/-- A conditional whose branches are given the site they stand at. A known
    condition leaves only one of them, on the path it stands on itself. -/
def ifElse (site : Site) (cond : Bool → Gen Cond) (onTrue : Site → Gen Unit)
    (onFalse : Option (Site → Gen Unit)) : Gen Unit := do
  match ← cond false with
  | .known true => onTrue site
  | .known false =>
    match onFalse with
    | some onFalse => onFalse site
    | none => pure ()
  | .jumps toElse =>
    onTrue site.branch
    match onFalse with
    | some onFalse => do
      let done ← emitJump (·.jump)
      patchAll toElse
      onFalse site.branch
      emit (·.patch done)
    | none => patchAll toElse

/-- Makes a condition that jumps on `true` jump to `start`. -/
def backTo (start : Address) : Cond → Gen Unit
  | .known true => emit (·.jumpTo start)
  | .known false => pure ()
  | .jumps back => patchAllTo back start

/-- The rounds of a loop that has been entered, up to the place to which `exits`
    lead. -/
def rounds (line : Nat) (cond : Bool → Gen Cond) (body update : Gen Unit)
    (exits : List Label) : Gen Unit := do
  let start ← here
  body
  update
  emit (·.setLine line)
  backTo start (← cond true)
  patchAll exits

/-- A loop tests its condition once before the first round and again after each
    one, so that every round takes one conditional jump. -/
def loop (line : Nat) (cond : Bool → Gen Cond) (body update : Gen Unit) : Gen Unit := do
  match ← cond false with
  | .known false => pure ()
  | .known true => rounds line cond body update []
  | .jumps exits => rounds line cond body update exits

end Gen

namespace Stmt

open Gen

/-- The condition of a loop; a loop without one runs until a `return`. -/
def loopCond (site : Site) (cond : Option Expr) (when : Bool) : Gen Cond :=
  match cond with
  | some cond => cond.genCond site when
  | none => pure (.known true)

mutual

/-- Code for a statement. Local variables live in the frame in the order of
    their declaration, and the end of a block drops its own. -/
def gen (site : Site) : Stmt → Gen Unit
  | block span stmts => do
    emit (·.setLine span.line)
    let mark := (← get).nextLocal
    genAll site stmts
    release mark
  | varDecl span var init => do
    emit (·.setLine span.line)
    declare var (init.genValue site)
  | assign span target value => do
    emit (·.setLine span.line)
    Gen.assign site target (value.genValue site)
  | indexAssign span target subscript value => do
    emit (·.setLine span.line)
    assignElement target (subscript.genPush site) (value.genPush site)
  | call span callee args => do
    emit (·.setLine span.line)
    callFor callee (Expr.genArgs site args)
  | .return span value => do
    emit (·.setLine span.line)
    returnWith site (value.map (·.genPush site))
  | ifElse span cond onTrue onFalse => do
    emit (·.setLine span.line)
    match onFalse with
    | none => Gen.ifElse site (cond.genCond site) (fun site => onTrue.gen site) none
    | some onFalse =>
      Gen.ifElse site (cond.genCond site) (fun site => onTrue.gen site)
        (some fun site => onFalse.gen site)
  | .while span cond body => do
    emit (·.setLine span.line)
    loop span.line (cond.genCond site.loop) (body.gen site.loop) (pure ())
  | .for span init cond update body => do
    emit (·.setLine span.line)
    let mark := (← get).nextLocal
    genOption site init
    loop span.line (loopCond site.loop cond) (body.gen site.loop) (genOption site.loop update)
    release mark

def genOption (site : Site) : Option Stmt → Gen Unit
  | none => pure ()
  | some stmt => stmt.gen site

def genAll (site : Site) : List Stmt → Gen Unit
  | [] => pure ()
  | stmt :: rest => do
    stmt.gen site
    genAll site rest

end

end Stmt

end SmallJava
