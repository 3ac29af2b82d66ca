namespace ReversePolish

inductive Printer where
  | buffer (captured : String)
  | silent
  | terminal (pending : String)
  deriving DecidableEq

namespace Printer

def println (p : Printer) (line : String) : Printer :=
  match p with
  | .buffer captured => .buffer (captured ++ line ++ "\n")
  | .silent => .silent
  | .terminal pending => .terminal (pending ++ line ++ "\n")

def captured : Printer → String
  | .buffer text => text
  | _ => ""

def pending : Printer → String
  | .terminal text => text
  | _ => ""

def clear : Printer → Printer
  | .buffer _ => .buffer ""
  | p => p

def flushed : Printer → Printer
  | .terminal _ => .terminal ""
  | p => p

end Printer

end ReversePolish
