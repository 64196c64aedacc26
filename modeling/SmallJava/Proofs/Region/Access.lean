import SmallJava.Proofs.Codegen.Image
import SmallJava.Proofs.Region.Instances
import SmallJava.Proofs.Typing.ReferenceSoundness
import SmallJava.Proofs.Typing.Values

namespace SmallJava

/-- What the code of a method may need storage for: a path, or an object of a class. -/
inductive Use where
  | path (ref : Reference)
  | new (cls : Ident)

/-- The path, and the paths before its dots. -/
def Reference.uses : Reference → List Use
  | .member annot owner name => .path (.member annot owner name) :: owner.uses
  | ref => [.path ref]

namespace Expr

mutual

def uses : Expr → List Use
  | unary _ _ operand => operand.uses
  | binary _ _ left right => left.uses ++ right.uses
  | ternary _ cond onTrue onFalse => cond.uses ++ (onTrue.uses ++ onFalse.uses)
  | ref _ target => target.uses
  | index _ target subscript => target.uses ++ subscript.uses
  | call _ callee args => callee.uses ++ allUses args
  | newObject _ cls => [.new cls]
  | newArray _ _ size => size.uses
  | _ => []

def allUses : List Expr → List Use
  | [] => []
  | arg :: rest => arg.uses ++ allUses rest

end

end Expr

/-- The type of a path in a method of the class, from what its last name is bound to. -/
def Reference.typeIn (sig : Signature) (cls : SymbolId) : Reference → Ty
  | .this _ => .object cls
  | .ident _ name | .member _ _ name => (name.binding.map sig.typeOf).getD .error

/-- A path to an object has the type that its last name gives it. -/
theorem Reference.Value.typeIn {Γ : Context} {vars : List SymbolId} {ref : Reference} {cls : SymbolId}
    (h : ref.Value Γ vars (.object cls)) : ref.typeIn Γ.sig Γ.cls = .object cls := by
  generalize hty : Ty.object cls = ty at h
  cases h with
  | this _ => rfl
  | «variable» hbound => simp [Reference.typeIn, hbound]
  | ownField hbound => simp [Reference.typeIn, hbound]
  | staticField hbound => simp [Reference.typeIn, hbound]
  | field hbound => simp [Reference.typeIn, hbound]
  | length => cases hty

/-- The words that a method may address: the static fields, the fields of its own object, its
    parameters, and what comes after its link data. -/
inductive Context.Region (Γ : Context) (statics : Int) : Register → Int → Prop
  | static {d : Int} (hlo : 0 ≤ d) (hhi : d < statics) : Region Γ statics .sb d
  | own {d : Int} (hinstance : Γ.isStatic = false) (hlo : 0 ≤ d)
      (hhi : d < (Γ.sig.instanceFields Γ.cls).length) : Region Γ statics .ob d
  | param {d : Int} (hlo : -(Γ.params.length : Int) ≤ d) (hhi : d ≤ -1) : Region Γ statics .lb d
  | local {d : Int} (hlo : linkDataSize ≤ d) : Region Γ statics .lb d

/-- Whether an instruction reads or writes a variable, knows the current object, or depends on
    how objects are laid out. -/
def Instruction.usesStorage (instr : Instruction) : Bool :=
  instr.op == .load || instr.op == .store || instr.r == .ob ||
    instr.primitive?.any fun p => p == .fieldref || p == .fieldupd || p == .newobj

theorem UnaryOp.usesStorage_primitive (op : UnaryOp) :
    (Instruction.primitive op.primitive).usesStorage = false := by
  cases op <;> rfl

theorem BinaryOp.usesStorage_primitive (op : BinaryOp) :
    (Instruction.primitive op.primitive).usesStorage = false := by
  cases op <;> rfl

section Explanation

variable (im : Image) (Γ : Context) (statics : Int) (uses : List Use)

/-- At `b`, after the object of a path, stands the offset of one of the instance fields that
    the class of the object has. -/
inductive Image.OffsetAt (b : Nat) : Prop
  | intro {annot owner name x cls modifiers d a}
      (huse : .path (.member annot owner name) ∈ uses) (hbound : name.binding = some x)
      (hkind : Γ.sig.kind? x = some (.field cls modifiers)) (hstatic : modifiers.isStatic = false)
      (hcls : owner.typeIn Γ.sig Γ.cls = .object cls) (howner : owner.PushCode im a b)
      (hoffset : im.Holds b (.literal d)) (hlo : 0 ≤ d)
      (hhi : d < (Γ.sig.instanceFields cls).length) : OffsetAt b

/-- Before `i` stands the size of an object of a class: the number of its instance fields. -/
inductive Image.SizeBefore (i : Nat) : Prop
  | intro {cls c info b} (huse : .new cls ∈ uses) (hbound : cls.binding = some c)
      (hkind : Γ.sig.kind? c = some (.cls info)) (hat : i = b + 1)
      (hsize : im.Holds b (.literal (Γ.sig.instanceFields c).length)) : SizeBefore i

/-- What an instruction of a method has to do with storage. -/
inductive Image.Explains (i : Nat) : Prop
  | other {instr} (hholds : im.Holds i instr) (hother : instr.usesStorage = false) : Explains i
  | this (hinstance : Γ.isStatic = false) (hholds : im.Holds i (.loadAddress .ob 0)) : Explains i
  | load {r d} (hregion : Γ.Region statics r d) (hholds : im.Holds i (.load r d)) : Explains i
  | store {r d} (hregion : Γ.Region statics r d) (hholds : im.Holds i (.store r d)) : Explains i
  | fieldref {b} (hoffset : im.OffsetAt Γ uses b) (hat : i = b + 1)
      (hholds : im.Holds i (.primitive .fieldref)) : Explains i
  | fieldupd {b fold} {value : Expr} (hoffset : im.OffsetAt Γ uses b)
      (hvalue : value.PushCode im fold (b + 1) i) (hholds : im.Holds i (.primitive .fieldupd)) :
      Explains i
  | newobj (hsize : im.SizeBefore Γ uses i) (hholds : im.Holds i (.primitive .newobj)) : Explains i

/-- What an assignment is prepared for when the code before `b` has run: a place in a region, or
    the field whose offset was pushed. -/
def Image.Prepared (b : Nat) : Destination → Prop
  | .register r d => Γ.Region statics r d
  | .field => ∃ o, b = o + 1 ∧ im.OffsetAt Γ uses o

/-- All instructions between two addresses are explained. -/
def Image.Explained (a b : Nat) : Prop := ∀ i, a ≤ i → i < b → im.Explains Γ statics uses i

/-- Symbols are stored where a method of the context may address them. -/
structure Image.Arranged : Prop where
  sig : Γ.sig = im.signature
  static : ∀ x cls modifiers d, Γ.sig.kind? x = some (.field cls modifiers) →
    modifiers.isStatic = true → im.slot? x = some d → 0 ≤ d ∧ d < statics
  own : ∀ x cls modifiers d, Γ.sig.kind? x = some (.field cls modifiers) →
    modifiers.isStatic = false → im.slot? x = some d →
      0 ≤ d ∧ d < (Γ.sig.instanceFields cls).length
  size : ∀ c info d, Γ.sig.kind? c = some (.cls info) → im.slot? c = some d →
    d = (Γ.sig.instanceFields c).length

/-- The variables lie in the frame of the method. -/
def Image.Holding (vars : List SymbolId) : Prop :=
  ∀ x ∈ vars, ∀ d, im.slot? x = some d → Γ.Region statics .lb d

end Explanation

namespace Image

variable {im : Image} {Γ : Context} {statics : Int} {uses : List Use} {a b c : Nat}

theorem Explained.refl (a : Nat) : im.Explained Γ statics uses a a :=
  fun _ hlo hhi => absurd hhi (Nat.not_lt.2 hlo)

theorem Explained.trans (h : im.Explained Γ statics uses a b) (h' : im.Explained Γ statics uses b c) :
    im.Explained Γ statics uses a c := by
  intro i hlo hhi
  obtain hlt | hle := Nat.lt_or_ge i b
  · exact h i hlo hlt
  · exact h' i hle hhi

theorem Explains.one (h : im.Explains Γ statics uses a) : im.Explained Γ statics uses a (a + 1) := by
  intro i hlo hhi
  obtain rfl : i = a := by omega
  exact h

theorem Holds.other {instr : Instruction} (hholds : im.Holds a instr)
    (hother : instr.usesStorage = false) : im.Explained Γ statics uses a (a + 1) :=
  (Explains.other hholds hother).one

end Image

section Access

variable {im : Image} {Γ : Context} {statics : Int} {uses : List Use} {vars : List SymbolId} {a b : Nat}

namespace Reference

variable {annot : Annot} {owner : Reference} {name : Ident} {x : SymbolId} {ty : Ty}

/-- A variable, or a field named without its object, is addressed in its region. -/
theorem Value.region {r : Register} {d : Int} (harr : im.Arranged Γ statics)
    (hvars : im.Holding Γ statics vars) (htyped : Value Γ vars (.ident annot name) ty)
    (hbound : name.binding = some x) (hbase : (im.signature.kind? x).bind (·.base?) = some r)
    (hslot : im.slot? x = some d) : Γ.Region statics r d := by
  cases htyped with
  | «variable» hbound' hvar hkind =>
    obtain rfl := Option.some.inj (hbound'.symm.trans hbound)
    obtain rfl : Register.lb = r := by
      rw [← harr.sig] at hbase
      obtain hkind | hkind := hkind
      · simpa [hkind, SymbolKind.base?] using hbase
      · simpa [hkind, SymbolKind.base?] using hbase
    exact hvars _ hvar d hslot
  | @ownField _ _ _ modifiers hbound' hkind hstatic =>
    obtain rfl := Option.some.inj (hbound'.symm.trans hbound)
    rw [← harr.sig, hkind, Option.bind_some, SymbolKind.base?] at hbase
    cases hmodifier : modifiers.isStatic with
    | true =>
      rw [hmodifier, if_pos rfl] at hbase
      obtain rfl := Option.some.inj hbase
      obtain ⟨hlo, hhi⟩ := harr.static _ _ _ d hkind hmodifier hslot
      exact .static hlo hhi
    | false =>
      rw [hmodifier, if_neg (by simp)] at hbase
      obtain rfl := Option.some.inj hbase
      obtain ⟨hlo, hhi⟩ := harr.own _ _ _ d hkind hmodifier hslot
      refine .own ?_ hlo hhi
      cases hmethod : Γ.isStatic with
      | false => rfl
      | true => exact absurd (hstatic hmethod) (by simp [hmodifier])

/-- A field of `this` belongs to the method's own object. -/
theorem Value.own_region {cls : SymbolId} {modifiers : Modifiers} {d : Int}
    (harr : im.Arranged Γ statics) (htyped : Value Γ vars (.member annot owner name) ty)
    (hbound : name.binding = some x) (hkind : im.signature.kind? x = some (.field cls modifiers))
    (hstatic : modifiers.isStatic = false) (hthis : owner.isThis = true)
    (hslot : im.slot? x = some d) : Γ.Region statics .ob d := by
  rw [← harr.sig] at hkind
  have howner := htyped.owner_of_field hbound hkind hstatic
  obtain ⟨hlo, hhi⟩ := harr.own _ _ _ d hkind hstatic hslot
  generalize hcls : Ty.object cls = ty' at howner
  cases howner with
  | this hinstance =>
    obtain rfl : cls = Γ.cls := Ty.object.inj hcls
    exact .own hinstance hlo hhi
  | _ => cases hthis

/-- Every instruction that pushes a path is there for the path or for a path before one of its dots.
    -/
theorem PushCode.explained (harr : im.Arranged Γ statics) (hvars : im.Holding Γ statics vars)
    {ref : Reference} (hcode : ref.PushCode im a b) (htyped : ref.Value Γ vars ty)
    (huses : ref.uses ⊆ uses) : im.Explained Γ statics uses a b := by
  induction hcode generalizing ty with
  | this hload =>
    cases htyped with
    | this hinstance => exact (Image.Explains.this hinstance hload).one
  | «variable» hbound hbase hslot hload =>
    exact (Image.Explains.load (htyped.region harr hvars hbound hbase hslot) hload).one
  | length hbound hkind _ hlen ih =>
    obtain ⟨elem, howner⟩ := htyped.owner_of_length hbound (harr.sig ▸ hkind)
    have hpushed := ih howner (List.subset_of_cons_subset huses)
    exact hpushed.trans (hlen.other rfl)
  | @staticField _ _ _ _ _ _ d _ _ hkind hstatic hslot hload =>
    obtain ⟨hlo, hhi⟩ := harr.static _ _ _ d (harr.sig ▸ hkind) hstatic hslot
    exact (Image.Explains.load (.static hlo hhi) hload).one
  | ownField hbound hkind hstatic hthis hslot hload =>
    exact (Image.Explains.load (htyped.own_region harr hbound hkind hstatic hthis hslot) hload).one
  | @field _ _ _ _ _ _ d _ _ hbound hkind hstatic _ hpush hslot hoffset hload ih =>
    have hkind := harr.sig ▸ hkind
    have howner := htyped.owner_of_field hbound hkind hstatic
    obtain ⟨hlo, hhi⟩ := harr.own _ _ _ d hkind hstatic hslot
    have hat : im.OffsetAt Γ uses _ := ⟨huses List.mem_cons_self, hbound, hkind, hstatic,
      howner.typeIn, hpush, hoffset, hlo, hhi⟩
    have hpushed := ih howner (List.subset_of_cons_subset huses)
    have hoffset := hpushed.trans (hoffset.other rfl)
    have hload : im.Explains Γ statics uses _ := .fieldref hat rfl hload
    exact hoffset.trans hload.one

/-- Every instruction that prepares an assignment is there for the target, and the store that
    follows has a place of the method or the offset of a field. -/
theorem DestinationCode.explained (harr : im.Arranged Γ statics) (hvars : im.Holding Γ statics vars)
    {ref : Reference} {destination : Destination} (hcode : ref.DestinationCode im destination a b)
    (htyped : ref.Value Γ vars ty) (huses : ref.uses ⊆ uses) :
    im.Explained Γ statics uses a b ∧ im.Prepared Γ statics uses b destination := by
  cases hcode with
  | «variable» hbound hbase hslot =>
    exact ⟨.refl a, htyped.region harr hvars hbound hbase hslot⟩
  | @staticField _ _ _ _ _ _ d _ _ hkind hstatic hslot =>
    obtain ⟨hlo, hhi⟩ := harr.static _ _ _ d (harr.sig ▸ hkind) hstatic hslot
    exact ⟨.refl a, .static hlo hhi⟩
  | ownField hbound hkind hstatic hthis hslot =>
    exact ⟨.refl a, htyped.own_region harr hbound hkind hstatic hthis hslot⟩
  | @field _ _ _ _ _ _ d _ _ hbound hkind hstatic _ hslot hpush hoffset =>
    have hkind := harr.sig ▸ hkind
    have howner := htyped.owner_of_field hbound hkind hstatic
    obtain ⟨hlo, hhi⟩ := harr.own _ _ _ d hkind hstatic hslot
    have hat : im.OffsetAt Γ uses _ := ⟨huses List.mem_cons_self, hbound, hkind, hstatic,
      howner.typeIn, hpush, hoffset, hlo, hhi⟩
    have hpushed := hpush.explained harr hvars howner (List.subset_of_cons_subset huses)
    have hoffset := hpushed.trans (hoffset.other rfl)
    exact ⟨hoffset, _, rfl, hat⟩

/-- A call without an object is made on the current one, which a static method does not have. -/
theorem InvokeCode.explained (harr : im.Arranged Γ statics) (hvars : im.Holding Γ statics vars)
    {callee : Reference} {m method : SymbolId} (hcode : callee.InvokeCode im method a b)
    (htyped : callee.Callee Γ vars m) (huses : callee.uses ⊆ uses) :
    im.Explained Γ statics uses a b := by
  cases hcode with
  | static _ _ _ _ hcall => exact hcall.other rfl
  | «instance» hbound hkind hstatic _ hreceiver hcall =>
    obtain ⟨hbinding, -⟩ := htyped.kind
    obtain rfl := Option.some.inj (hbinding.symm.trans hbound)
    rw [← harr.sig] at hkind
    refine .trans ?_ (hcall.other rfl)
    cases hreceiver with
    | explicit howner =>
      exact howner.explained harr hvars (htyped.owner_of_instance hkind hstatic)
        (List.subset_of_cons_subset huses)
    | implicit hcallee hload =>
      refine (Image.Explains.this ?_ hload).one
      cases htyped with
      | own _ hkind' _ hinstance =>
        obtain rfl := SymbolKind.method.inj (Option.some.inj (hkind'.symm.trans hkind))
        cases hmethod : Γ.isStatic with
        | false => rfl
        | true => exact absurd (hinstance hmethod) (by simp [hstatic])
      | static => exact absurd rfl (hcallee _ _ _)
      | «instance» => exact absurd rfl (hcallee _ _ _)

end Reference

namespace Expr

/-- The expression has some type. -/
def Typed (Γ : Context) (vars : List SymbolId) (expr : Expr) : Prop := ∃ τ, expr.HasType Γ vars τ

namespace Typed

variable {annot : Annot}

theorem unary {op : UnaryOp} {operand : Expr} (h : (Expr.unary annot op operand).Typed Γ vars) :
    operand.Typed Γ vars := by
  obtain ⟨τ, htyped⟩ := h
  cases htyped with
  | not hoperand => exact ⟨_, hoperand⟩
  | neg hoperand => exact ⟨_, hoperand⟩

/-- The operands of a typed operator are typed. -/
theorem binary {op : BinaryOp} {left right : Expr}
    (h : (Expr.binary annot op left right).Typed Γ vars) :
    left.Typed Γ vars ∧ right.Typed Γ vars := by
  obtain ⟨τ, htyped⟩ := h
  cases htyped with
  | logical _ hleft hright => exact ⟨⟨_, hleft⟩, ⟨_, hright⟩⟩
  | relational _ hleft hright => exact ⟨⟨_, hleft⟩, ⟨_, hright⟩⟩
  | arithmetic _ hleft hright => exact ⟨⟨_, hleft⟩, ⟨_, hright⟩⟩
  | equality _ hleft hright => exact ⟨⟨_, hleft⟩, ⟨_, hright⟩⟩

theorem ternary {cond onTrue onFalse : Expr}
    (h : (Expr.ternary annot cond onTrue onFalse).Typed Γ vars) :
    cond.Typed Γ vars ∧ onTrue.Typed Γ vars ∧ onFalse.Typed Γ vars := by
  obtain ⟨τ, htyped⟩ := h
  cases htyped with
  | ternary hcond hTrue hFalse => exact ⟨⟨_, hcond⟩, ⟨_, hTrue⟩, ⟨_, hFalse⟩⟩

theorem ref {target : Reference} (h : (Expr.ref annot target).Typed Γ vars) :
    ∃ ty, target.Value Γ vars ty := by
  obtain ⟨τ, htyped⟩ := h
  cases htyped with
  | ref htarget => exact ⟨τ, htarget⟩

theorem index {target : Reference} {subscript : Expr}
    (h : (Expr.index annot target subscript).Typed Γ vars) :
    (∃ ty, target.Value Γ vars ty) ∧ subscript.Typed Γ vars := by
  obtain ⟨τ, htyped⟩ := h
  cases htyped with
  | index htarget hsubscript => exact ⟨⟨_, htarget⟩, ⟨_, hsubscript⟩⟩

theorem call {callee : Reference} {args : List Expr}
    (h : (Expr.call annot callee args).Typed Γ vars) :
    ∃ m, callee.Callee Γ vars m ∧ Expr.ArgsFit Γ vars args (Γ.sig.paramsOf m) := by
  obtain ⟨τ, htyped⟩ := h
  cases htyped with
  | call hcallee hargs => exact ⟨_, hcallee, hargs⟩

theorem newObject {cls : Ident} (h : (Expr.newObject annot cls).Typed Γ vars) :
    ∃ c info, cls.binding = some c ∧ Γ.sig.kind? c = some (.cls info) := by
  obtain ⟨τ, htyped⟩ := h
  cases htyped with
  | newObject hbound hkind => exact ⟨_, _, hbound, hkind⟩

theorem newArray {elem : TypeExpr} {size : Expr}
    (h : (Expr.newArray annot elem size).Typed Γ vars) : size.Typed Γ vars := by
  obtain ⟨τ, htyped⟩ := h
  cases htyped with
  | newArray _ hsize => exact ⟨_, hsize⟩

end Typed

variable {fold : Folding}

mutual

/-- All instructions of the code of a value are explained: by the operands, or by the instruction that
    uses them. -/
theorem ValueCode.explained {expr : Expr} {value : Value} {a b : Nat} (harr : im.Arranged Γ statics)
    (hvars : im.Holding Γ statics vars) :
    expr.ValueCode im fold value a b → expr.Typed Γ vars → expr.uses ⊆ uses →
      im.Explained Γ statics uses a b
  | .constant _ => fun _ _ => .refl _
  | .unary hoperand hop => by
    intro htyped huses
    have hoperand := hoperand.explained harr hvars htyped.unary huses
    exact hoperand.trans (hop.other (UnaryOp.usesStorage_primitive _))
  | .binary _ hleft hright hop => by
    intro htyped huses
    obtain ⟨huses, huses'⟩ := List.append_subset.1 huses
    have hleft := hleft.explained harr hvars htyped.binary.1 huses
    have hright := hright.explained harr hvars htyped.binary.2 huses'
    exact (hleft.trans hright).trans (hop.other (BinaryOp.usesStorage_primitive _))
  | .leftDecides _ _ => fun _ _ => .refl _
  | .rightRemains _ _ _ hright => by
    intro htyped huses
    exact hright.explained harr hvars htyped.binary.2 (List.append_subset.1 huses).2
  | .rightDecides _ hleft _ hpop => by
    intro htyped huses
    have hleft := hleft.explained harr hvars htyped.binary.1 (List.append_subset.1 huses).1
    exact hleft.trans (hpop.other rfl)
  | .leftRemains _ hleft _ _ => by
    intro htyped huses
    exact hleft.explained harr hvars htyped.binary.1 (List.append_subset.1 huses).1
  | .logical _ hleft hshort hright hdone hdecisive => by
    intro htyped huses
    obtain ⟨huses, huses'⟩ := List.append_subset.1 huses
    have hleft := hleft.explained harr hvars htyped.binary.1 huses
    have hshort := hleft.trans (hshort.other rfl)
    have hright := hshort.trans (hright.explained harr hvars htyped.binary.2 huses')
    have hdone := hright.trans (hdone.other rfl)
    exact hdone.trans (hdecisive.other rfl)
  | .choiceKnown _ hchosen => by
    intro htyped huses
    obtain ⟨-, hTrue, hFalse⟩ := htyped.ternary
    obtain ⟨-, huses⟩ := List.append_subset.1 huses
    obtain ⟨huses, huses'⟩ := List.append_subset.1 huses
    refine hchosen.explained harr hvars ?_ ?_
    · split
      next => exact hTrue
      next => exact hFalse
    · split
      next => exact huses
      next => exact huses'
  | .choice hcond hTrue hdone hFalse => by
    intro htyped huses
    obtain ⟨hcond', hTrue', hFalse'⟩ := htyped.ternary
    obtain ⟨husesCond, huses⟩ := List.append_subset.1 huses
    obtain ⟨huses, huses'⟩ := List.append_subset.1 huses
    have hcond := hcond.explained harr hvars hcond' husesCond
    have hTrue := hTrue.explained harr hvars hTrue' huses
    have hFalse := hFalse.explained harr hvars hFalse' huses'
    have hdone := (hcond.trans hTrue).trans (hdone.other rfl)
    exact hdone.trans hFalse
  | .ref htarget => by
    intro htyped huses
    obtain ⟨ty, htarget'⟩ := htyped.ref
    exact htarget.explained harr hvars htarget' huses
  | .index htarget hsubscript hload => by
    intro htyped huses
    obtain ⟨⟨ty, htarget'⟩, hsubscript'⟩ := htyped.index
    obtain ⟨huses, huses'⟩ := List.append_subset.1 huses
    have htarget := htarget.explained harr hvars htarget' huses
    have hsubscript := hsubscript.explained harr hvars hsubscript' huses'
    exact (htarget.trans hsubscript).trans (hload.other rfl)
  | .call hargs hinvoke => by
    intro htyped huses
    obtain ⟨m, hcallee, hargs'⟩ := htyped.call
    obtain ⟨huses, huses'⟩ := List.append_subset.1 huses
    have hargs := hargs.explained harr hvars hargs' huses'
    have hinvoke := hinvoke.explained harr hvars hcallee huses
    exact hargs.trans hinvoke
  | @ValueCode.newObject _ _ _ _ _ size _ hbound hslot hheader hsize hnew => by
    intro htyped huses
    obtain ⟨c, info, hbound', hkind⟩ := htyped.newObject
    obtain rfl := Option.some.inj (hbound'.symm.trans hbound)
    obtain rfl := harr.size _ _ size hkind hslot
    have hnew : im.Explains Γ statics uses _ := .newobj
      ⟨huses (List.mem_singleton.2 rfl), hbound, hkind, rfl, hsize⟩ hnew
    have hheader : im.Explained Γ statics uses _ _ := hheader.other rfl
    have hsize := hheader.trans (hsize.other rfl)
    exact hsize.trans hnew.one
  | .newArray hsize hnew => by
    intro htyped huses
    have hsize := hsize.explained harr hvars htyped.newArray huses
    exact hsize.trans (hnew.other rfl)

/-- Every instruction that pushes an expression is there for something that the expression uses. -/
theorem PushCode.explained {expr : Expr} {a b : Nat} (harr : im.Arranged Γ statics)
    (hvars : im.Holding Γ statics vars) :
    expr.PushCode im fold a b → expr.Typed Γ vars → expr.uses ⊆ uses →
      im.Explained Γ statics uses a b
  | .known hvalue hliteral => by
    intro htyped huses
    have hvalue := hvalue.explained harr hvars htyped huses
    exact hvalue.trans (hliteral.other rfl)
  | .onStack hvalue => by
    intro htyped huses
    exact hvalue.explained harr hvars htyped huses

/-- All instructions of the code of a condition are explained. -/
theorem CondCode.explained {expr : Expr} {when : Bool} {outcome : Option Bool} {a b t : Nat}
    (harr : im.Arranged Γ statics) (hvars : im.Holding Γ statics vars) :
    expr.CondCode im fold when outcome a b t → expr.Typed Γ vars → expr.uses ⊆ uses →
      im.Explained Γ statics uses a b
  | .constant _ => fun _ _ => .refl _
  | .not hoperand => by
    intro htyped huses
    exact hoperand.explained harr hvars htyped.unary huses
  | .either _ hleft hright => by
    intro htyped huses
    obtain ⟨huses, huses'⟩ := List.append_subset.1 huses
    have hleft := hleft.explained harr hvars htyped.binary.1 huses
    have hright := hright.explained harr hvars htyped.binary.2 huses'
    exact hleft.trans hright
  | .both _ hleft hright => by
    intro htyped huses
    obtain ⟨huses, huses'⟩ := List.append_subset.1 huses
    have hleft := hleft.explained harr hvars htyped.binary.1 huses
    have hright := hright.explained harr hvars htyped.binary.2 huses'
    exact hleft.trans hright
  | .test hvalue hjump => by
    intro htyped huses
    have hvalue := hvalue.explained harr hvars htyped huses
    exact hvalue.trans (hjump.other rfl)

/-- Every instruction that jumps on a condition is there for something that the condition uses. -/
theorem JumpCode.explained {expr : Expr} {when : Bool} {a b t : Nat} (harr : im.Arranged Γ statics)
    (hvars : im.Holding Γ statics vars) :
    expr.JumpCode im fold when a b t → expr.Typed Γ vars → expr.uses ⊆ uses →
      im.Explained Γ statics uses a b
  | .always _ hjump => fun _ _ => hjump.other rfl
  | .never _ => fun _ _ => .refl _
  | .test hcond => by
    intro htyped huses
    exact hcond.explained harr hvars htyped huses

/-- Every instruction of the arguments is there for something that the arguments use. -/
theorem ArgsCode.explained {args : List Expr} {params : List SymbolId} {a b : Nat}
    (harr : im.Arranged Γ statics) (hvars : im.Holding Γ statics vars) :
    Expr.ArgsCode im fold args a b → Expr.ArgsFit Γ vars args params → allUses args ⊆ uses →
      im.Explained Γ statics uses a b
  | .nil => fun _ _ => .refl _
  | .cons harg hrest => by
    intro htyped huses
    obtain ⟨huses, huses'⟩ := List.append_subset.1 huses
    cases htyped with
    | cons harg' _ hrest' =>
      have harg := harg.explained harr hvars ⟨_, harg'⟩ huses
      have hrest := hrest.explained harr hvars hrest' huses'
      exact harg.trans hrest

end

end Expr

end Access

end SmallJava
