import SinkTrace.Code.Literal

/-!
Syntax trees of Python programs.

`Expr`, `Pattern` and `Stmt` follow the abstract grammar of the language. `Node` is any node of a
tree, and `Node.children` lists its immediate parts in the order of that grammar, which is the
order of every walk that has no rule of its own for a node. There are no nodes for type parameters
and `type` statements; texts with these are not parsed.
-/

namespace SinkTrace

/-- Where a node stands: its first and last line, and a mark that tells nodes apart. -/
structure Loc where
  line : Nat := 0
  endLine : Nat := 0
  mark : Nat := 0
deriving Repr, Inhabited

inductive BoolOp where
  | and | or
deriving Repr, DecidableEq

inductive BinOp where
  | add | sub | mult | matMult | div | mod | pow | lShift | rShift | bitOr | bitXor | bitAnd
  | floorDiv
deriving Repr, DecidableEq

inductive UnaryOp where
  | invert | not | plus | minus
deriving Repr, DecidableEq

inductive CompareOp where
  | eq | notEq | lt | ltE | gt | gtE | is | isNot | isIn | notIn
deriving Repr, DecidableEq

structure Param (ε : Type) where
  loc : Loc
  name : String
  hint : Option ε

/-- The parameters of a function. The last of `posOnly ++ plain` have the `defaults`. -/
structure Params (ε : Type) where
  posOnly : List (Param ε)
  plain : List (Param ε)
  vararg : Option (Param ε)
  kwOnly : List (Param ε)
  kwDefaults : List (Option ε)
  kwarg : Option (Param ε)
  defaults : List ε

/-- A keyword argument; without a name it is an unpacked mapping. -/
structure Keyword (ε : Type) where
  loc : Loc
  arg : Option String
  value : ε

structure Generator (ε : Type) where
  target : ε
  iter : ε
  ifs : List ε
  isAsync : Bool

inductive Expr where
  | boolOp (loc : Loc) (op : BoolOp) (values : List Expr)
  | named (loc : Loc) (target value : Expr)
  | binOp (loc : Loc) (left : Expr) (op : BinOp) (right : Expr)
  | unaryOp (loc : Loc) (op : UnaryOp) (operand : Expr)
  | lambda (loc : Loc) (params : Params Expr) (body : Expr)
  | ifExp (loc : Loc) (test body orelse : Expr)
  | dict (loc : Loc) (items : List (Option Expr × Expr))
  | set (loc : Loc) (elts : List Expr)
  | listComp (loc : Loc) (elt : Expr) (gens : List (Generator Expr))
  | setComp (loc : Loc) (elt : Expr) (gens : List (Generator Expr))
  | dictComp (loc : Loc) (key value : Expr) (gens : List (Generator Expr))
  | generatorExp (loc : Loc) (elt : Expr) (gens : List (Generator Expr))
  | await (loc : Loc) (value : Expr)
  | yield (loc : Loc) (value : Option Expr)
  | yieldFrom (loc : Loc) (value : Expr)
  | compare (loc : Loc) (left : Expr) (rest : List (CompareOp × Expr))
  | call (loc : Loc) (func : Expr) (args : List Expr) (keywords : List (Keyword Expr))
  | formatted (loc : Loc) (value : Expr) (conversion : Option Char) (spec : Option Expr)
  | joined (loc : Loc) (values : List Expr)
  | constant (loc : Loc) (value : Literal) (marked : Bool)
  | attr (loc : Loc) (value : Expr) (attr : String)
  | subscript (loc : Loc) (value slice : Expr)
  | starred (loc : Loc) (value : Expr)
  | name (loc : Loc) (id : String)
  | list (loc : Loc) (elts : List Expr)
  | tuple (loc : Loc) (elts : List Expr)
  | slice (loc : Loc) (lower upper step : Option Expr)
deriving Inhabited

structure Alias where
  loc : Loc
  name : String
  asname : Option String

inductive Pattern where
  | value (loc : Loc) (e : Expr)
  | singleton (loc : Loc) (l : Literal)
  | sequence (loc : Loc) (ps : List Pattern)
  | mapping (loc : Loc) (keys : List Expr) (ps : List Pattern) (rest : Option String)
  | cls (loc : Loc) (c : Expr) (ps : List Pattern) (attrs : List String) (attrPs : List Pattern)
  | star (loc : Loc) (name : Option String)
  | asName (loc : Loc) (p : Option Pattern) (name : Option String)
  | or (loc : Loc) (ps : List Pattern)
deriving Inhabited

structure WithItem where
  context : Expr
  target : Option Expr

structure Handler (σ : Type) where
  loc : Loc
  type : Option Expr
  name : Option String
  body : List σ

structure Case (σ : Type) where
  pattern : Pattern
  guard : Option Expr
  body : List σ

/-- What an import statement says: `import …`, or `from … import …`. -/
inductive Import where
  | plain (loc : Loc) (names : List Alias)
  | fromModule (loc : Loc) (module : Option String) (names : List Alias) (level : Nat)

structure Function (σ : Type) where
  loc : Loc
  isAsync : Bool
  name : String
  params : Params Expr
  body : List σ
  decorators : List Expr
  returns : Option Expr

structure ClassDecl (σ : Type) where
  loc : Loc
  name : String
  bases : List Expr
  keywords : List (Keyword Expr)
  body : List σ
  decorators : List Expr

inductive Stmt where
  | functionDef (f : Function Stmt)
  | classDef (c : ClassDecl Stmt)
  | ret (loc : Loc) (value : Option Expr)
  | delete (loc : Loc) (targets : List Expr)
  | assign (loc : Loc) (targets : List Expr) (value : Expr)
  | augAssign (loc : Loc) (target : Expr) (op : BinOp) (value : Expr)
  | annAssign (loc : Loc) (target hint : Expr) (value : Option Expr) (simple : Bool)
  | forLoop (loc : Loc) (isAsync : Bool) (target iter : Expr) (body orelse : List Stmt)
  | whileLoop (loc : Loc) (test : Expr) (body orelse : List Stmt)
  | ifThen (loc : Loc) (test : Expr) (body orelse : List Stmt)
  | withBlock (loc : Loc) (isAsync : Bool) (items : List WithItem) (body : List Stmt)
  | matchOn (loc : Loc) (subject : Expr) (cases : List (Case Stmt))
  | raise (loc : Loc) (exc cause : Option Expr)
  | tryBlock (loc : Loc) (isStar : Bool) (body : List Stmt) (handlers : List (Handler Stmt))
      (orelse finalbody : List Stmt)
  | assert (loc : Loc) (test : Expr) (msg : Option Expr)
  | importing (i : Import)
  | globalNames (loc : Loc) (names : List String)
  | nonlocalNames (loc : Loc) (names : List String)
  | expr (loc : Loc) (value : Expr)
  | pass (loc : Loc)
  | breakLoop (loc : Loc)
  | continueLoop (loc : Loc)
deriving Inhabited

inductive Node where
  | program (body : List Stmt)
  | stmt (s : Stmt)
  | expr (e : Expr)
  | params (p : Params Expr)
  | param (p : Param Expr)
  | keyword (k : Keyword Expr)
  | generator (g : Generator Expr)
  | handler (h : Handler Stmt)
  | withItem (w : WithItem)
  | case (c : Case Stmt)
  | pattern (p : Pattern)
  | importName (a : Alias)

namespace Import

def loc : Import → Loc
  | plain loc _ => loc
  | fromModule loc _ _ _ => loc

def names : Import → List Alias
  | plain _ names => names
  | fromModule _ _ names _ => names

def source? : Import → Option String
  | plain .. => none
  | fromModule _ module _ _ => module

def level : Import → Nat
  | plain .. => 0
  | fromModule _ _ _ level => level

end Import

namespace Expr

def loc : Expr → Loc
  | boolOp l .. | named l .. | binOp l .. | unaryOp l .. | lambda l .. | ifExp l .. | dict l ..
  | set l .. | listComp l .. | setComp l .. | dictComp l .. | generatorExp l .. | await l ..
  | yield l .. | yieldFrom l .. | compare l .. | call l .. | formatted l .. | joined l ..
  | constant l .. | attr l .. | subscript l .. | starred l .. | name l .. | list l ..
  | tuple l .. | slice l .. => l

def id? : Expr → Option String
  | name _ id => some id
  | _ => none

def attr? : Expr → Option String
  | attr _ _ a => some a
  | _ => none

/-- The expression that an expression is about: what an attribute is taken of, what is awaited. -/
def value? : Expr → Option Expr
  | attr _ v _ | subscript _ v _ | starred _ v | await _ v | yieldFrom _ v | formatted _ v _ _
  | named _ _ v => some v
  | yield _ v => v
  | _ => none

def valueId? (e : Expr) : Option String := e.value?.bind id?

def callee? : Expr → Option Expr
  | call _ f _ _ => some f
  | _ => none

def shortName? (e : Expr) : Option String := e.attr? <|> e.id?

end Expr

namespace Param

def classHint? (p : Param Expr) : Option String :=
  match p.hint with
  | some (.subscript _ _ (.name _ id)) => some id
  | some (.name _ id) => some id
  | _ => none

end Param

namespace Stmt

def loc : Stmt → Loc
  | functionDef f => f.loc
  | classDef c => c.loc
  | importing i => i.loc
  | ret l .. | delete l .. | assign l .. | augAssign l .. | annAssign l .. | forLoop l ..
  | whileLoop l .. | ifThen l .. | withBlock l .. | matchOn l .. | raise l .. | tryBlock l ..
  | assert l .. | globalNames l .. | nonlocalNames l .. | expr l .. | pass l | breakLoop l
  | continueLoop l => l

end Stmt

namespace Node

def exprs (es : List Expr) : List Node := es.map .expr
def stmts (ss : List Stmt) : List Node := ss.map .stmt
def opt (e : Option Expr) : List Node := (e.map Node.expr).toList

def ofExpr : Expr → List Node
  | .boolOp _ _ vs => exprs vs
  | .named _ t v => [.expr t, .expr v]
  | .binOp _ l _ r => [.expr l, .expr r]
  | .unaryOp _ _ e => [.expr e]
  | .lambda _ ps b => [.params ps, .expr b]
  | .ifExp _ t b e => exprs [t, b, e]
  | .dict _ items => (items.filterMap (·.1)).map .expr ++ items.map fun i => .expr i.2
  | .set _ es => exprs es
  | .listComp _ e gs => .expr e :: gs.map .generator
  | .setComp _ e gs => .expr e :: gs.map .generator
  | .dictComp _ k v gs => .expr k :: .expr v :: gs.map .generator
  | .generatorExp _ e gs => .expr e :: gs.map .generator
  | .await _ v => [.expr v]
  | .yield _ v => opt v
  | .yieldFrom _ v => [.expr v]
  | .compare _ l rest => .expr l :: rest.map fun r => .expr r.2
  | .call _ f as ks => .expr f :: exprs as ++ ks.map .keyword
  | .formatted _ v _ s => .expr v :: opt s
  | .joined _ vs => exprs vs
  | .constant .. => []
  | .attr _ v _ => [.expr v]
  | .subscript _ v s => [.expr v, .expr s]
  | .starred _ v => [.expr v]
  | .name .. => []
  | .list _ es => exprs es
  | .tuple _ es => exprs es
  | .slice _ l u s => opt l ++ opt u ++ opt s

def ofStmt : Stmt → List Node
  | .functionDef f => .params f.params :: stmts f.body ++ exprs f.decorators ++ opt f.returns
  | .classDef c => exprs c.bases ++ c.keywords.map .keyword ++ stmts c.body ++ exprs c.decorators
  | .ret _ v => opt v
  | .delete _ ts => exprs ts
  | .assign _ ts v => exprs ts ++ [.expr v]
  | .augAssign _ t _ v => [.expr t, .expr v]
  | .annAssign _ t a v _ => .expr t :: .expr a :: opt v
  | .forLoop _ _ t i b e => .expr t :: .expr i :: stmts b ++ stmts e
  | .whileLoop _ t b e => .expr t :: stmts b ++ stmts e
  | .ifThen _ t b e => .expr t :: stmts b ++ stmts e
  | .withBlock _ _ is b => is.map .withItem ++ stmts b
  | .matchOn _ s cs => .expr s :: cs.map .case
  | .raise _ e c => opt e ++ opt c
  | .tryBlock _ _ b hs e f => stmts b ++ hs.map .handler ++ stmts e ++ stmts f
  | .assert _ t m => .expr t :: opt m
  | .importing i => i.names.map .importName
  | .expr _ v => [.expr v]
  | .globalNames .. | .nonlocalNames .. | .pass _ | .breakLoop _ | .continueLoop _ => []

def ofPattern : Pattern → List Node
  | .value _ e => [.expr e]
  | .singleton .. => []
  | .sequence _ ps => ps.map .pattern
  | .mapping _ ks ps _ => exprs ks ++ ps.map .pattern
  | .cls _ c ps _ aps => .expr c :: ps.map .pattern ++ aps.map .pattern
  | .star .. => []
  | .asName _ p _ => (p.map Node.pattern).toList
  | .or _ ps => ps.map .pattern

def children : Node → List Node
  | program b => stmts b
  | stmt s => ofStmt s
  | expr e => ofExpr e
  | params p =>
    p.posOnly.map .param ++ p.plain.map .param ++ (p.vararg.map Node.param).toList ++
      p.kwOnly.map .param ++ (p.kwDefaults.filterMap id).map .expr ++
      (p.kwarg.map Node.param).toList ++ exprs p.defaults
  | param p => opt p.hint
  | keyword k => [.expr k.value]
  | generator g => .expr g.target :: .expr g.iter :: exprs g.ifs
  | handler h => opt h.type ++ stmts h.body
  | withItem w => .expr w.context :: opt w.target
  | case c => .pattern c.pattern :: opt c.guard ++ stmts c.body
  | pattern p => ofPattern p
  | importName _ => []

def line? : Node → Option Nat
  | stmt s => some s.loc.line
  | expr e => some e.loc.line
  | param p => some p.loc.line
  | keyword k => some k.loc.line
  | handler h => some h.loc.line
  | importName a => some a.loc.line
  | pattern (.value l _) | pattern (.singleton l _) | pattern (.sequence l _)
  | pattern (.mapping l _ _ _) | pattern (.cls l _ _ _ _) | pattern (.star l _)
  | pattern (.asName l _ _) | pattern (.or l _) => some l.line
  | _ => none

def lastLine : Nat → Node → Nat
  | 0, n => n.line?.getD 0
  | depth + 1, n => (n.children.map (lastLine depth)).foldl max (n.line?.getD 0)

end Node

end SinkTrace
