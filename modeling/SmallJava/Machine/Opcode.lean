namespace SmallJava

/-- The operations of the mJAM machine, in the order of their codes. -/
inductive Opcode where
  | load
  | loada
  | loadi
  | loadl
  | store
  | storei
  | call
  | calli
  | calld
  | return
  | push
  | pop
  | jump
  | jumpi
  | jumpif
  | halt
  deriving DecidableEq

/-- The registers, in the order of their codes: a zero register, the bases and
    tops of code, primitives, stack and heap, the local base, the object base
    and the code pointer. -/
inductive Register where
  | zr
  | cb
  | ct
  | pb
  | pt
  | sb
  | st
  | hb
  | ht
  | lb
  | ob
  | cp
  deriving DecidableEq

/-- The routines of the machine that are called through `PB`, in the order of
    their codes. -/
inductive Primitive where
  | id
  | not
  | and
  | or
  | succ
  | pred
  | neg
  | add
  | sub
  | mult
  | div
  | mod
  | lt
  | le
  | ge
  | gt
  | eq
  | ne
  | eol
  | eof
  | get
  | put
  | geteol
  | puteol
  | getint
  | putint
  | putintnl
  | alloc
  | dispose
  | newobj
  | newarr
  | arrayref
  | arraylen
  | arrayupd
  | fieldref
  | fieldupd
  deriving DecidableEq

namespace Opcode

/-- All operations; each stands at the position of its code. -/
def all : List Opcode :=
  [load, loada, loadi, loadl, store, storei, call, calli, calld, .return, push, pop, jump, jumpi,
    jumpif, halt]

def code (op : Opcode) : Nat := op.ctorIdx

def ofCode? (code : Nat) : Option Opcode := all[code]?

theorem ofCode?_code (op : Opcode) : ofCode? op.code = some op := by
  cases op <;> rfl

def mnemonic : Opcode → String
  | load => "LOAD"
  | loada => "LOADA"
  | loadi => "LOADI"
  | loadl => "LOADL"
  | store => "STORE"
  | storei => "STOREI"
  | call => "CALL"
  | calli => "CALLI"
  | calld => "CALLD"
  | .return => "RETURN"
  | push => "PUSH"
  | pop => "POP"
  | jump => "JUMP"
  | jumpi => "JUMPI"
  | jumpif => "JUMPIF"
  | halt => "HALT"

instance : ToString Opcode := ⟨mnemonic⟩

end Opcode

namespace Register

/-- All registers; each stands at the position of its code. -/
def all : List Register := [zr, cb, ct, pb, pt, sb, st, hb, ht, lb, ob, cp]

def code (register : Register) : Nat := register.ctorIdx

def ofCode? (code : Nat) : Option Register := all[code]?

theorem ofCode?_code (register : Register) : ofCode? register.code = some register := by
  cases register <;> rfl

def name : Register → String
  | zr => "ZR"
  | cb => "CB"
  | ct => "CT"
  | pb => "PB"
  | pt => "PT"
  | sb => "SB"
  | st => "ST"
  | hb => "HB"
  | ht => "HT"
  | lb => "LB"
  | ob => "OB"
  | cp => "CP"

instance : ToString Register := ⟨name⟩

end Register

namespace Primitive

/-- All primitives; each stands at the position of its code. -/
def all : List Primitive :=
  [id, not, and, or, succ, pred, neg, add, sub, mult, div, mod, lt, le, ge, gt, eq, ne, eol, eof,
    get, put, geteol, puteol, getint, putint, putintnl, alloc, dispose, newobj, newarr, arrayref,
    arraylen, arrayupd, fieldref, fieldupd]

def code (primitive : Primitive) : Nat := primitive.ctorIdx

/-- Codes come from signed operands, of which the negative ones mean nothing. -/
def ofCode? (code : Int) : Option Primitive :=
  if code < 0 then none else all[code.toNat]?

theorem ofCode?_code (primitive : Primitive) : ofCode? primitive.code = some primitive := by
  cases primitive <;> rfl

def name : Primitive → String
  | id => "id"
  | not => "not"
  | and => "and"
  | or => "or"
  | succ => "succ"
  | pred => "pred"
  | neg => "neg"
  | add => "add"
  | sub => "sub"
  | mult => "mult"
  | div => "div"
  | mod => "mod"
  | lt => "lt"
  | le => "le"
  | ge => "ge"
  | gt => "gt"
  | eq => "eq"
  | ne => "ne"
  | eol => "eol"
  | eof => "eof"
  | get => "get"
  | put => "put"
  | geteol => "geteol"
  | puteol => "puteol"
  | getint => "getint"
  | putint => "putint"
  | putintnl => "putintnl"
  | alloc => "alloc"
  | dispose => "dispose"
  | newobj => "newobj"
  | newarr => "newarr"
  | arrayref => "arrayref"
  | arraylen => "arraylen"
  | arrayupd => "arrayupd"
  | fieldref => "fieldref"
  | fieldupd => "fieldupd"

instance : ToString Primitive := ⟨name⟩

end Primitive

end SmallJava
