import SmallJava.Syntax.Definition

namespace SmallJava

namespace Reference

/-- The parts of a text between its dots. There is always one more part than
    there are dots, so parts may be empty. -/
def segments : List Char → List (List Char)
  | [] => [[]]
  | c :: rest =>
    if c = '.' then [] :: segments rest
    else
      match segments rest with
      | [] => [[c]]
      | segment :: others => (c :: segment) :: others

theorem segments_ne_nil (text : List Char) : segments text ≠ [] := by
  cases text with
  | nil => simp [segments]
  | cons c rest =>
    simp only [segments]
    split
    · simp
    · split <;> simp

/-- Nothing of the text but its dots is lost. -/
theorem intercalate_segments (text : List Char) : ['.'].intercalate (segments text) = text := by
  induction text with
  | nil => rfl
  | cons c rest ih =>
    obtain ⟨segment, others, hrest⟩ := List.exists_cons_of_ne_nil (segments_ne_nil rest)
    rw [hrest] at ih
    simp only [segments, hrest]
    by_cases hdot : c = '.'
    · subst hdot
      simpa [List.intercalate] using ih
    · cases others with
      | nil => simpa [hdot, List.intercalate] using ih
      | cons next more => simpa [hdot, List.intercalate] using ih

/-- The reference that a dotted path spells: `this` at its head is the keyword,
    every other segment a name, empty segments included. -/
def ofPath (path : String) : Reference :=
  match (segments path.toList).map String.ofList with
  | [] => this {}
  | head :: rest =>
    let start := if head = "this" then this {} else ident {} { name := head }
    rest.foldl (fun owner segment => member {} owner { name := segment }) start

end Reference

/-- The statement `System.out.println(arg);`. -/
def Stmt.println (arg : Expr) : Stmt :=
  .call {} (.ofPath "System.out.println") [arg]

/-- The method `public static void main(String[] args)` with the given body. -/
def MethodDef.main (body : List Stmt) : MethodDef where
  modifiers := { isStatic := true }
  returnType := .void {}
  name := "main"
  params := [{ type := .array {} (.named {} "String"), name := "args" }]
  body := body

end SmallJava
