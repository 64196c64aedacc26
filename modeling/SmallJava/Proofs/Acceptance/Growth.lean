import SmallJava.Proofs.Acceptance.Paths
import SmallJava.Proofs.Analysis.ScopeCover

namespace SmallJava

/-- At the end of a block. -/
def Source.Env.leave (E : Source.Env) : Source.Env :=
  match E.around with
  | [] => { E with block := [] }
  | block :: around => { E with block, around }

variable {decls : List ClassDef} {cls : ClassDef} {method : MethodContext} {b b' : Bindings}
  {E : Source.Env}

/-- Variables change no class. -/
theorem Bindings.Knows.addsVariables {kind : SymbolKind} {strict : Bool} (h : b.Knows decls)
    (hadds : b.table.AddsVariables kind strict b'.table) (hbuiltins : b'.builtins = b.builtins)
    (hclasses : b'.scope.classes = b.scope.classes) : b'.Knows decls where
  describes := hadds.describes hbuiltins hclasses h.describes
  string := hbuiltins ▸ h.string
  arrayLength := hbuiltins ▸ hadds.kind?_eq_some h.arrayLength
  arrayLengthTy := by
    rw [hbuiltins, hadds.typeOf_eq h.arrayLength]
    exact h.arrayLengthTy

theorem Bindings.Knows.rescope (h : b.Knows decls) {scope : Scope}
    (hclasses : scope.classes = b.scope.classes) : Bindings.Knows { b with scope } decls :=
  have hsame : b.table.AddsVariables .localVar false b.table := .refl rfl false _
  h.addsVariables hsame rfl hclasses

/-- A layer of names keeps its meaning when variables are added to the table. -/
theorem Layer.Means.addsVariables {kind : SymbolKind} {strict : Bool} {table table' : SymbolTable}
    {layer : Layer} {block : Source.Block} (hadds : table.AddsVariables kind strict table')
    (h : layer.Means table decls block) : layer.Means table' decls block := by
  refine h.imp fun var entry => ?_
  rintro ⟨hname, ⟨kind, hkind, hplace⟩, hty⟩
  refine ⟨hname, ⟨kind, hadds.kind?_eq_some hkind, hplace⟩, ?_⟩
  rwa [hadds.typeOf_eq hkind]

/-- A declared variable is one of the innermost block. -/
theorem Scope.Represents.of_declareLocal {scope scope' : Scope} {layer : Layer} {layers : Layers}
    {name : String} {x : SymbolId} {span : Span} (h : scope.Represents (layer :: layers))
    (hdeclare : scope.declareLocal name x span = .ok scope') :
    scope'.Represents (((name, x) :: layer) :: layers) := by
  have hdeclared := h.declareLocal name x span
  split at hdeclared
  next => cases hdeclare.symm.trans hdeclared
  next =>
  obtain ⟨found, hfound, hrepresents⟩ := hdeclared
  obtain rfl := Except.ok.inj (hdeclare.symm.trans hfound)
  exact hrepresents

namespace Bindings.Models

/-- The names in force differ in local variables only. -/
theorem rescope (h : b.Models decls cls method E) {scope : Scope} {layer : Layer} {layers : Layers}
    {block : Source.Block} {around : List Source.Block} (hclasses : scope.classes = b.scope.classes)
    (hmembers : scope.members = b.scope.members) (hrepresents : scope.Represents (layer :: layers))
    (hlayer : layer.Means b.table decls block)
    (hlayers : List.Forall₂ (Layer.Means b.table decls) layers around) :
    Bindings.Models decls cls { b with scope } method { E with block, around } where
  knows := h.knows.rescope hclasses
  classes := h.classes
  mem := h.mem
  bound := h.bound
  own := h.own
  members := by
    change ∀ name x, scope.members.get? name = some x ↔ _
    rw [hmembers]
    exact h.members
  isStatic := h.isStatic
  returnTy := h.returnTy
  layers := ⟨layer, layers, hrepresents, hlayer, hlayers⟩

theorem push (h : b.Models decls cls method E) :
    Bindings.Models decls cls { b with scope := b.scope.push } method E.enter := by
  obtain ⟨layer, layers, hrepresents, hlayer, hlayers⟩ := h.layers
  exact h.rescope rfl rfl hrepresents.push .nil (.cons hlayer hlayers)

/-- The end of a block takes the innermost layer away on both sides. -/
theorem pop (h : b.Models decls cls method E) :
    Bindings.Models decls cls { b with scope := b.scope.pop } method E.leave := by
  obtain ⟨layer, layers, hrepresents, hlayer, hlayers⟩ := h.layers
  unfold Source.Env.leave
  split
  next hnone =>
    rw [hnone] at hlayers
    cases hlayers
    have hpop : b.scope.pop.Represents [[]] := hrepresents.pop
    rw [hnone]
    exact h.rescope (by rfl) (by rfl) hpop .nil .nil
  next block around hsome =>
    rw [hsome] at hlayers
    cases hlayers with
    | @cons outer _ layers _ houter hlayers =>
      have hpop : b.scope.pop.Represents (outer :: layers) := hrepresents.pop
      exact h.rescope (by rfl) (by rfl) hpop houter hlayers

/-- One more variable is declared in the innermost block. -/
theorem declare (h : b.Models decls cls method E) {name : String} {ty : Ty} {τ : Source.Ty}
    {span : Span} {scope : Scope} (hwritten : ty.isWritten = true) (hty : ty.Means decls τ)
    (hdeclare : b.scope.declareLocal name b.table.nextId span = .ok scope) :
    Bindings.Models decls cls { b with table := b.table.add name .localVar ty span, scope } method
      { E with block := (name, τ) :: E.block } := by
  obtain ⟨layer, layers, hrepresents, hlayer, hlayers⟩ := h.layers
  obtain ⟨-, hclasses, hmembers, -⟩ := Scope.declareLocal_eq hdeclare
  have hadds : b.table.AddsVariables .localVar false (b.table.add name .localVar ty span) :=
    .add rfl _ _ _ hwritten nofun
  refine ⟨h.knows.addsVariables hadds rfl hclasses, h.classes, h.mem, h.bound, h.own, ?_,
    h.isStatic, h.returnTy, _, layers, hrepresents.of_declareLocal hdeclare,
      .cons ⟨rfl, ?_, ?_⟩ (hlayer.addsVariables hadds), hlayers.imp fun _ _ => .addsVariables hadds⟩
  · change ∀ name x, scope.members.get? name = some x ↔ _
    rw [hmembers]
    exact h.members
  · exact ⟨.localVar, SymbolTable.kind?_add.trans (if_pos rfl), rfl⟩
  · change SymbolTable.typeOf _ _ |>.Means decls τ
    rw [SymbolTable.typeOf_add, if_pos rfl]
    exact hty

/-- A variable can be declared exactly if the innermost block has none of its name. -/
theorem declareLocal_iff (h : b.Models decls cls method E) (name : String) (x : SymbolId)
    (span : Span) :
    (∃ scope, b.scope.declareLocal name x span = .ok scope) ↔ E.block.lookup name = none := by
  obtain ⟨layer, layers, hrepresents, hlayer, -⟩ := h.layers
  have hdeclared := hrepresents.declareLocal name x span
  have hfirst := hlayer.lookup name
  generalize E.block.lookup name = known at hfirst
  cases hlookup : layer.lookup name with
  | none =>
    rw [hlookup] at hdeclared hfirst
    cases hfirst
    obtain ⟨scope, hscope, -⟩ := hdeclared
    exact iff_of_true ⟨scope, hscope⟩ rfl
  | some y =>
    rw [hlookup] at hdeclared hfirst
    cases hfirst
    refine iff_of_false ?_ nofun
    rintro ⟨scope, hscope⟩
    cases hscope.symm.trans hdeclared

/-- What a name in force denotes is declared. -/
theorem lookup_declared (h : b.Models decls cls method E) {name : String} {found : Resolved}
    (hlookup : b.scope.lookup name = some found) : ∃ kind, b.table.kind? found.symbol = some kind := by
  obtain ⟨x, τ, hlocal, -, hstands⟩ | ⟨x, hmember, -, d, hd, rfl, hbound⟩ | ⟨hclass, -⟩ :=
    h.lookup_cases name
  · obtain rfl := Option.some.inj (hlocal.symm.trans hlookup)
    cases hstands with
    | place hkind => exact ⟨_, hkind⟩
  · obtain rfl := Option.some.inj (hmember.symm.trans hlookup)
    obtain ⟨entity, hstands, -⟩ := (h.knows.member_corresponds h.mem d.name d.modifiers).sound x
      ⟨d, hd, rfl, hbound, rfl⟩
    cases hstands with
    | place hkind | length hkind => exact ⟨_, hkind⟩
    | method hdeclared => exact ⟨_, hdeclared.kind⟩
    | cls hmem hbound =>
      obtain ⟨c, hdeclared⟩ := h.knows.describes.declared _ hmem
      obtain rfl := Option.some.inj (hdeclared.bound.symm.trans hbound)
      obtain ⟨info, hinfo, -⟩ := hdeclared.info
      exact ⟨_, hinfo⟩
  · rw [hclass] at hlookup
    obtain ⟨c, hc, rfl⟩ := Option.map_eq_some_iff.1 hlookup
    obtain ⟨found, hmem, -, hbound⟩ := h.knows.class?_eq_some_iff.1 hc
    obtain ⟨c', hdeclared⟩ := h.knows.describes.declared found hmem
    obtain rfl := Option.some.inj (hdeclared.bound.symm.trans hbound)
    obtain ⟨info, hinfo, -⟩ := hdeclared.info
    exact ⟨_, hinfo⟩

/-- While its initial value is analysed, the new variable is the one that the rules forbid. -/
theorem duringInit (h : b.Models decls cls method E) {name : String} {ty : Ty} {τ : Source.Ty}
    {span : Span} {scope : Scope} (hwritten : ty.isWritten = true) (hty : ty.Means decls τ)
    (hdeclare : b.scope.declareLocal name b.table.nextId span = .ok scope) :
    Env.Models decls cls
      { table := b.table.add name .localVar ty span, builtins := b.builtins, scope, method
        initializing := some b.table.nextId }
      { E with block := (name, τ) :: E.block, initializing := some name } := by
  have hdeclared := h.declare hwritten hty hdeclare
  obtain ⟨-, hclasses, hmembers, hlocals⟩ := Scope.declareLocal_eq hdeclare
  refine ⟨⟨hdeclared.knows, h.classes, h.mem, h.bound, h.own, hdeclared.members, h.isStatic,
    h.returnTy, hdeclared.layers⟩, fun other found hlookup => ?_, fun other hother => ?_⟩
  · change scope.lookup other = some found at hlookup
    unfold Scope.lookup at hlookup
    rw [hclasses, hmembers, hlocals, Dict.get?_insert] at hlookup
    by_cases heq : other = name
    · rw [if_pos heq] at hlookup
      obtain rfl := Option.some.inj hlookup
      exact iff_of_true rfl (congrArg some heq.symm)
    · rw [if_neg heq] at hlookup
      obtain ⟨kind, hkind⟩ := h.lookup_declared hlookup
      refine iff_of_false (fun hnew => ?_) (fun hsame => heq (Option.some.inj hsame).symm)
      exact SymbolTable.ne_nextId hkind (Option.some.inj hnew).symm
  · obtain rfl := Option.some.inj hother
    simp [Source.Env.visible?]

end Bindings.Models

end SmallJava
