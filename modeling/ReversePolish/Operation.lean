/-!
The operations of the language. Operand 0 of an operation is the one written last before it.
-/

namespace ReversePolish

inductive Operation where
  | add
  | mul
  | pow
  | sub
  | div
  | mod
  | reciprocal
  | abs
  | eq
  | ne
  | gt
  | ge
  | lt
  | le
  | alloc
  | allocArray
  | assign
  | store
  | prog2
  | prog3
  | prog4
  | branch
  | whileLoop
  | forLoop
  | define
  | call
  | print
  | nop
  deriving DecidableEq, Repr

namespace Operation

def all : List Operation :=
  [.add, .mul, .pow, .sub, .div, .mod, .reciprocal, .abs, .eq, .ne, .gt, .ge, .lt, .le,
    .alloc, .allocArray, .assign, .store, .prog2, .prog3, .prog4, .branch, .whileLoop, .forLoop,
    .define, .call, .print, .nop]

def symbol : Operation → String
  | .add => "+"
  | .mul => "*"
  | .pow => "**"
  | .sub => "-"
  | .div => "/"
  | .mod => "%"
  | .reciprocal => "1/"
  | .abs => "abs"
  | .eq => "="
  | .ne => "!="
  | .gt => ">"
  | .ge => ">="
  | .lt => "<"
  | .le => "<="
  | .alloc => "alloc"
  | .allocArray => "valloc"
  | .assign => "setq"
  | .store => "setv"
  | .prog2 => "prog2"
  | .prog3 => "prog3"
  | .prog4 => "prog4"
  | .branch => "if"
  | .whileLoop => "while"
  | .forLoop => "for"
  | .define => "defsub"
  | .call => "call"
  | .print => "print"
  | .nop => "nop"

def arity : Operation → Nat
  | .nop => 0
  | .reciprocal | .abs | .alloc | .call | .print => 1
  | .add | .mul | .pow | .sub | .div | .mod => 2
  | .eq | .ne | .gt | .ge | .lt | .le => 2
  | .allocArray | .assign | .prog2 | .whileLoop | .define => 2
  | .store | .prog3 | .branch => 3
  | .prog4 | .forLoop => 4

def isPure : Operation → Bool
  | .add | .mul | .pow | .sub | .div | .mod | .reciprocal | .abs => true
  | .eq | .ne | .gt | .ge | .lt | .le => true
  | _ => false

end Operation

end ReversePolish
