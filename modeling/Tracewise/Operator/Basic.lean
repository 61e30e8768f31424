import Tracewise.Text

namespace Tracewise

inductive UnOp
  | not
  | neg
deriving DecidableEq

inductive BinOp
  | and
  | or
  | eq
  | ne
  | lt
  | le
  | gt
  | ge
  | add
  | sub
  | mul
deriving DecidableEq

inductive Op
  | unary (op : UnOp)
  | binary (op : BinOp)
deriving DecidableEq

def UnOp.symbol : UnOp → String
  | not => "!"
  | neg => "-"

def BinOp.symbol : BinOp → String
  | and => "&&"
  | or => "||"
  | eq => "=="
  | ne => "!="
  | lt => "<"
  | le => "<="
  | gt => ">"
  | ge => ">="
  | add => "+"
  | sub => "-"
  | mul => "*"

def UnOp.all : List UnOp := [not, neg]

def BinOp.all : List BinOp := [and, or, eq, ne, lt, le, gt, ge, add, sub, mul]

def Op.text : Op → String
  | unary op => "unary " ++ Text.cited op.symbol
  | binary op => "binary " ++ Text.cited op.symbol

end Tracewise
