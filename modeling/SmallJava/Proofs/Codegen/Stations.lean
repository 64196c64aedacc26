import SmallJava.Proofs.Codegen.StmtEmission
import SmallJava.Proofs.Typing.Judgement

namespace SmallJava

open Gen

/-- A step on the way from a statement to a part of it that does not run again and again. -/
inductive Turn where
  /-- To one of the statements of a block. -/
  | nth (i : Nat)
  | onTrue
  | onFalse
  /-- To what comes before the rounds of a `for` loop. -/
  | init
  deriving DecidableEq

/-- A statement that gets its code, with the states of code generation before and after it. -/
structure Station where
  site : Site
  /-- The local variables in force where the statement stands. -/
  locals : List SymbolId
  stmt : Stmt
  before : GenState
  after : GenState

namespace Stmt

mutual

/-- Generates the code of a statement, and yields how the part at the end of the way got its
    code, if it got any. -/
def genStation (site : Site) (locals : List SymbolId) : Stmt → List Turn → Gen (Option Station)
  | stmt, [] => do
    let before ← get
    stmt.gen site
    return some ⟨site, locals, stmt, before, ← get⟩
  | block span stmts, .nth i :: way => do
    emit (·.setLine span.line)
    let mark := (← get).nextLocal
    let station ← genAllStation site locals stmts i way
    release mark
    pure station
  | ifElse span cond onTrue onFalse, .onTrue :: way => do
    emit (·.setLine span.line)
    match ← cond.genCond site false with
    | .known true => onTrue.genStation site locals way
    | .known false => do
      genOption site onFalse
      pure none
    | .jumps toElse => do
      let station ← onTrue.genStation site.branch locals way
      match onFalse with
      | some onFalse => do
        let done ← emitJump (·.jump)
        patchAll toElse
        onFalse.gen site.branch
        emit (·.patch done)
      | none => patchAll toElse
      pure station
  | ifElse span cond onTrue (some onFalse), .onFalse :: way => do
    emit (·.setLine span.line)
    match ← cond.genCond site false with
    | .known true => do
      onTrue.gen site
      pure none
    | .known false => onFalse.genStation site locals way
    | .jumps toElse => do
      onTrue.gen site.branch
      let done ← emitJump (·.jump)
      patchAll toElse
      let station ← onFalse.genStation site.branch locals way
      emit (·.patch done)
      pure station
  | .for span (some init) cond update body, .init :: way => do
    emit (·.setLine span.line)
    let mark := (← get).nextLocal
    let station ← init.genStation site locals way
    loop span.line (loopCond site.loop cond) (body.gen site.loop) (genOption site.loop update)
    release mark
    pure station
  | stmt, _ => do
    stmt.gen site
    pure none

/-- The same for the part at the end of a way from one of the statements. -/
def genAllStation (site : Site) (locals : List SymbolId) :
    List Stmt → Nat → List Turn → Gen (Option Station)
  | [], _, _ => pure none
  | stmt :: rest, 0, way => do
    let station ← stmt.genStation site locals way
    genAll site rest
    pure station
  | stmt :: rest, i + 1, way => do
    stmt.gen site
    genAllStation site (locals ++ stmt.binds) rest i way

end

mutual

/-- What is generated does not depend on the part that is looked at. -/
theorem genStation_void (site : Site) (locals : List SymbolId) : (stmt : Stmt) → (way : List Turn) →
    (do let _ ← stmt.genStation site locals way) = stmt.gen site
  | stmt, [] => by
    funext s
    simp only [genStation, bind_assoc, pure_bind]
    change (do stmt.gen site; let _ ← get) s = _
    cases hgen : stmt.gen site s with
    | ok _ s' =>
      rw [bind_of_ok hgen]
      rfl
    | error fault s' => rw [bind_of_error hgen]
  | block span stmts, .nth i :: way => by
    simp only [genStation, gen, bind_assoc, pure_bind, bind_pure_unit]
    simp only [← genAllStation_void site locals stmts i way, bind_assoc, pure_bind]
  | ifElse _ cond onTrue onFalse, .onTrue :: way => by
    have hTrue := fun site => onTrue.genStation_void site locals way
    cases onFalse with
    | none =>
      simp only [genStation, gen, Gen.ifElse, bind_assoc]
      refine bind_congr fun _ => bind_congr fun outcome => ?_
      cases outcome with
      | known outcome => cases outcome <;> simp [← hTrue, genOption]
      | jumps => simp [← hTrue]
    | some onFalse =>
      simp only [genStation, gen, Gen.ifElse, bind_assoc]
      refine bind_congr fun _ => bind_congr fun outcome => ?_
      cases outcome with
      | known outcome => cases outcome <;> simp [← hTrue, genOption]
      | jumps => simp [← hTrue]
  | ifElse _ _ onTrue (some onFalse), .onFalse :: way => by
    have hFalse := fun site => onFalse.genStation_void site locals way
    simp only [genStation, gen, Gen.ifElse, bind_assoc]
    refine bind_congr fun _ => bind_congr fun outcome => ?_
    cases outcome with
    | known outcome => cases outcome <;> simp [← hFalse]
    | jumps => simp [← hFalse]
  | .for span (some init) cond update body, .init :: way => by
    simp only [genStation, gen, genOption, bind_assoc, pure_bind, bind_pure_unit]
    simp only [← genStation_void site locals init way, bind_assoc, pure_bind]
  | block .., .onTrue :: _ | block .., .onFalse :: _ | block .., .init :: _ | varDecl .., _ :: _
  | assign .., _ :: _ | indexAssign .., _ :: _ | call .., _ :: _ | .return .., _ :: _
  | ifElse .., .nth _ :: _ | ifElse .., .init :: _ | ifElse _ _ _ none, .onFalse :: _
  | .while .., _ :: _ | .for _ none .., .init :: _ | .for .., .nth _ :: _ | .for .., .onTrue :: _
  | .for .., .onFalse :: _ => by
    simp [genStation]

/-- Looking for a station among statements does not change the code that is generated. -/
theorem genAllStation_void (site : Site) (locals : List SymbolId) : (stmts : List Stmt) → (i : Nat) →
    (way : List Turn) → (do let _ ← genAllStation site locals stmts i way) = genAll site stmts
  | [], _, _ => by simp [genAllStation, genAll]
  | stmt :: rest, 0, way => by
    simp only [genAllStation, genAll, bind_assoc, pure_bind, bind_pure_unit]
    simp only [← genStation_void site locals stmt way, bind_assoc, pure_bind]
  | stmt :: rest, i + 1, way => by
    simp only [genAllStation, genAll, bind_assoc]
    simp only [← genAllStation_void site (locals ++ stmt.binds) rest i way]

end

end Stmt

namespace MethodDef

/-- Generates the code of a method, and yields how the part at the end of a way from one of the
    statements of its body got its code, if it got any. -/
def genStation (options : Options) (method : MethodDef) (i : Nat) (way : List Turn) :
    Gen (Option Station) := do
  let symbol ← bound method.binding method.span
  emit (·.setLine method.span.line)
  setSlot symbol (← here).toOperand
  modify fun state => { state with nextLocal := linkDataSize, known := .empty }
  let station ← Stmt.genAllStation (method.site options) [] method.body i way
  if method.returnType.isVoid && !Stmt.allReturn method.body then
    emit (·.returnWith 0 (method.site options).argCount)
  pure station

/-- This generates what is generated without looking at a part. -/
theorem genStation_void (options : Options) (method : MethodDef) (i : Nat) (way : List Turn) :
    (do let _ ← method.genStation options i way) = method.gen options := by
  have hbody := Stmt.genAllStation_void (method.site options) [] method.body i way
  unfold genStation gen
  simp only [bind_assoc]
  change _ = (do
    let symbol ← bound method.binding method.span
    emit (·.setLine method.span.line)
    setSlot symbol (← here).toOperand
    modify fun state => { state with nextLocal := linkDataSize, known := .empty }
    Stmt.genAll (method.site options) method.body
    if method.returnType.isVoid && !Stmt.allReturn method.body then
      emit (·.returnWith 0 (method.site options).argCount) : Gen Unit)
  simp only [← hbody, bind_assoc, pure_bind]
  refine bind_congr fun symbol => bind_congr fun _ => bind_congr fun a => bind_congr fun _ =>
    bind_congr fun _ => bind_congr fun station => ?_
  split <;> simp

end MethodDef

end SmallJava
