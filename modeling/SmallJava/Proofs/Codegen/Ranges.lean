import SmallJava.Proofs.Codegen.Extent
import SmallJava.Proofs.Codegen.PackageEmission

namespace SmallJava

open Gen

/-- Where the code of a program ends if these are its methods. Before them come the prologue and
    `println`. -/
def Analysis.codeEnd? (analysis : Analysis) (options : Options) (entry : SymbolId)
    (methods : List MethodDef) : Option Address :=
  let code : Gen Address := do
    let statics ← layout
    prologue statics entry
    printlnBody analysis.builtins.println
    MethodDef.genAll options methods
    here
  match code { table := analysis.table } with
  | .ok a _ => some a
  | .error _ _ => none

/-- The end of the code is the end of what the last method adds to the prologue and the built-in
    method. -/
theorem Analysis.codeEnd?_eq {analysis : Analysis} {options : Options} {entry : SymbolId}
    {methods : List MethodDef} {statics : Int} {laidOut : SymbolTable} {s₁ s₂ s₃ : GenState}
    (hlayout : SlotWriter.layout analysis.table = .ok statics laidOut)
    (hprologue : prologue statics entry { table := laidOut } = .ok () s₁)
    (hprintln : printlnBody analysis.builtins.println s₁ = .ok () s₂)
    (hmethods : MethodDef.genAll options methods s₂ = .ok () s₃) :
    analysis.codeEnd? options entry methods = some s₃.here := by
  have hlaidOut : layout { table := analysis.table } = .ok statics { table := laidOut } :=
    layout_eq_ok_iff.2 ⟨laidOut, hlayout, rfl⟩
  unfold codeEnd?
  dsimp only
  rw [bind_of_ok hlaidOut, bind_of_ok hprologue, bind_of_ok hprintln, bind_of_ok hmethods]
  rfl

/-- Methods may be generated in two groups, one after the other. -/
theorem MethodDef.genAll_append (options : Options) (before after : List MethodDef) :
    genAll options (before ++ after) = (do genAll options before; genAll options after) := by
  induction before with
  | nil => rfl
  | cons method rest ih =>
    change (do method.gen options; genAll options (rest ++ after)) = _
    rw [ih, ← bind_assoc]
    rfl

namespace Package

variable {package : Package} {options : Options} {analysis : Analysis} {entry : SymbolId}
  {executable : Executable} {table : SymbolTable}

/-- The code of each method has its place between that of the methods before and after it. -/
theorem generate_range (hgen : package.generate options analysis entry = (.ok executable, table))
    {before after : List MethodDef} {method : MethodDef}
    (hmethods : package.classes.flatMap (·.methods) = before ++ method :: after) :
    ∃ s e, analysis.codeEnd? options entry before = some s ∧
      analysis.codeEnd? options entry (before ++ [method]) = some e ∧ e ≤ executable.code.size ∧
        method.Code (executable.image table) options s e := by
  obtain ⟨statics, laidOut, s₁, s₂, s₃, hlayout, hprologue, hprintln, hall, hfinished, -, rfl⟩ :=
    generate_runs hgen
  rw [hmethods, MethodDef.genAll_append] at hall
  obtain ⟨_, t₁, hbefore, hall⟩ := bind_eq_ok_iff.1 hall
  obtain ⟨_, t₂, hmethod, hafter⟩ := bind_eq_ok_iff.1 hall
  have hsingle : MethodDef.genAll options (before ++ [method]) s₂ = .ok () t₂ := by
    rw [MethodDef.genAll_append]
    exact (bind_of_ok hbefore).trans ((bind_of_ok hmethod).trans rfl)
  refine ⟨t₁.here, t₂.here, Analysis.codeEnd?_eq hlayout hprologue hprintln hbefore,
    Analysis.codeEnd?_eq hlayout hprologue hprintln hsingle, ?_⟩
  have hrest := MethodDef.genAll_emits hafter
  have hrun := ((prologue_emits hprologue).trans ((printlnBody_emits hprintln).2.trans
    (MethodDef.genAll_emits hbefore))).trans ((MethodDef.gen_emits hmethod).trans hrest)
  have hempty : Assembler.Noted {} := ⟨by simp, List.Pairwise.nil⟩
  obtain ⟨hreal, hsize⟩ := GenState.realizes_of_finish executable (hrun.noted hempty) hfinished
  obtain ⟨⟨-, hcode, -⟩, -⟩ := hrun.shape hempty _ _ (fun _ => 0) hreal fun _ _ _ => by simp
  exact ⟨hsize ▸ hrest.le, hcode⟩

/-- Before the methods stand only the prologue and `println`. -/
theorem generate_start (hgen : package.generate options analysis entry = (.ok executable, table)) :
    ∃ statics a laidOut, SlotWriter.layout analysis.table = .ok statics laidOut ∧
      SymbolTable.Assigned laidOut table ∧
      analysis.codeEnd? options entry [] = some (a + 7) ∧
      package.Code (executable.image table) options analysis.builtins entry statics a
        executable.code.size := by
  obtain ⟨statics, laidOut, s₁, s₂, s₃, hlayout, hprologue, hprintln, hall, hfinished, -, rfl⟩ :=
    generate_runs hgen
  obtain ⟨a, hhere, hassigned, hcode⟩ := code_of_runs hprologue hprintln hall hfinished
  have hnone : MethodDef.genAll options [] s₂ = .ok () s₂ := rfl
  have hend := Analysis.codeEnd?_eq hlayout hprologue hprintln hnone
  exact ⟨statics, a, laidOut, hlayout, hassigned, hhere ▸ hend, hcode⟩

end Package

end SmallJava
