import SinkTrace.Code.Tree
import SinkTrace.Code.Token
import SinkTrace.Data.Names

/-!
Symbol tables: the nested blocks of a program that have names of their own.

Functions, classes, functions without a name and comprehensions are blocks. They are listed in the
order in which they are come to: what belongs to the enclosing block (defaults, annotations,
decorators, bases) before the block itself. The uses of names in the blocks have to fit together;
otherwise the text is not a program.
-/

namespace SinkTrace

inductive BlockKind where
  | program | function | cls
  /-- The block of an annotation that is not evaluated. It is in no table. -/
  | hint
deriving Repr, DecidableEq

inductive SymbolTable where
  | mk (name : String) (kind : BlockKind) (children : List SymbolTable)

namespace SymbolTable

def name : SymbolTable → String
  | mk n _ _ => n

def kind : SymbolTable → BlockKind
  | mk _ k _ => k

def children : SymbolTable → List SymbolTable
  | mk _ _ cs => cs

structure Use where
  isGlobal : Bool := false
  isLocal : Bool := false
  isParam : Bool := false
  isNonlocal : Bool := false
  isUsed : Bool := false
  isAnnotated : Bool := false
  isImported : Bool := false
  /-- The name is bound by the loop of a comprehension. -/
  isLoopName : Bool := false

def Use.merge (a b : Use) : Use :=
  { isGlobal := a.isGlobal || b.isGlobal
    isLocal := a.isLocal || b.isLocal
    isParam := a.isParam || b.isParam
    isNonlocal := a.isNonlocal || b.isNonlocal
    isUsed := a.isUsed || b.isUsed
    isAnnotated := a.isAnnotated || b.isAnnotated
    isImported := a.isImported || b.isImported
    isLoopName := a.isLoopName || b.isLoopName }

def Use.isBound (u : Use) : Bool := u.isLocal || u.isParam || u.isImported

inductive Block where
  | mk (name : String) (kind : BlockKind) (uses : List (String × Use)) (children : List Block)

structure Open where
  name : String
  kind : BlockKind
  isComprehension : Bool := false
  /-- The enclosing class, whose name is put before private names. -/
  owner : Option String
  uses : Table String Use := {}
  children : List Block := []
  /-- The loop names of a comprehension are being read. -/
  inTarget : Bool := false
  /-- How many iterated expressions of comprehensions are open. -/
  inIterated : Nat := 0

structure Reading where
  blocks : List Open
  /-- Annotations are not evaluated. -/
  lateAnnotations : Bool

abbrev Read := StateT Reading (Except CodeFault)

def malformed {α : Type} : Read α := throw .malformed

/-- Names that start with two underscores and do not end with two belong to their class. -/
def privateName (owner : Option String) (name : String) : String :=
  match owner with
  | none => name
  | some c =>
    let bare := String.ofList (c.toList.dropWhile (· = '_'))
    if Text.startsWith name "__" && !Text.endsWith name "__" && !name.toList.contains '.' &&
      bare ≠ ""
    then "_" ++ bare ++ name else name

def current : Read Open := do
  match (← get).blocks with
  | b :: _ => return b
  | [] => malformed

def onCurrent (f : Open → Open) : Read Unit :=
  modify fun r => { r with blocks := r.blocks.modifyHead f }

def useIn (b : Open) (name : String) (u : Use) : Except CodeFault Open :=
  let key := privateName b.owner name
  let old := b.uses.getD key {}
  if old.isParam && u.isParam then .error .malformed
  else
    let new := old.merge u
    if b.inTarget && (new.isGlobal || new.isNonlocal) then .error .malformed
    else .ok { b with
      uses := b.uses.set key { new with isLoopName := new.isLoopName || b.inTarget } }

def use (name : String) (u : Use) : Read Unit := do
  let b ← current
  let b' ← useIn b name u
  onCurrent fun _ => b'
  if u.isGlobal then
    modify fun r =>
      match r.blocks.reverse with
      | [] => r
      | top :: inner =>
        let key := privateName b.owner name
        let top := { top with uses := top.uses.set key ((top.uses.getD key {}).merge u) }
        { r with blocks := inner.reverse ++ [top] }

def seen (name : String) : Read Use := do
  let b ← current
  return b.uses.getD (privateName b.owner name) {}

def inside (name : String) (kind : BlockKind) (comprehension : Bool) (owner : Option String)
    (body : Read Unit) : Read Unit := do
  let outer ← current
  let new : Open :=
    { name, kind, isComprehension := comprehension, owner, inIterated := outer.inIterated }
  modify fun r => { r with blocks := new :: r.blocks }
  body
  match (← get).blocks with
  | b :: rest =>
    modify fun r => { r with blocks := rest }
    unless kind = .hint do
      onCurrent fun o =>
        { o with children := o.children ++ [.mk b.name b.kind b.uses.entries b.children] }
  | [] => malformed

def hintBlock (body : Read Unit) : Read Unit := do
  if (← get).lateAnnotations then
    inside "_annotation" .hint false (← current).owner body
  else body

def bindOutside (name : String) : Read Unit := do
  let blocks := (← get).blocks
  let comprehensions := blocks.takeWhile (·.isComprehension)
  if comprehensions.any fun b => (b.uses.getD (privateName b.owner name) {}).isLoopName
    then malformed
  match blocks.drop comprehensions.length with
  | [] => pure ()
  | b :: _ =>
    match b.kind with
    | .function =>
      if (b.uses.getD (privateName b.owner name) {}).isGlobal then use name { isGlobal := true }
      else use name { isNonlocal := true }
      let b' ← useIn b name { isLocal := true }
      modify fun r => { r with
        blocks := r.blocks.take comprehensions.length ++
        b' :: r.blocks.drop (comprehensions.length + 1) }
    | .program => use name { isGlobal := true }
    | .cls => malformed
    | .hint => pure ()

def notInAnnotation : Read Unit := do
  if (← current).kind = .hint then malformed

def useName (name : String) : Read Unit := do
  use name { isUsed := true }
  if name = "super" && (← current).kind = .function then use "__class__" { isUsed := true }

def bindName (name : String) : Read Unit := use name { isLocal := true }

def paramNames (ps : Params Expr) : Read Unit := do
  for p in ps.posOnly ++ ps.plain ++ ps.kwOnly ++ ps.vararg.toList ++ ps.kwarg.toList do
    use p.name { isParam := true }

/-- A comprehension takes its outermost iterated value as a parameter. -/
def comprehensionStart : Read Unit := use ".0" { isParam := true }

def iterated (read : Read Unit) : Read Unit := do
  onCurrent fun b => { b with inIterated := b.inIterated + 1 }
  read
  onCurrent fun b => { b with inIterated := b.inIterated - 1 }

/-! ### Expressions -/

mutual

def expr : Expr → Read Unit
  | .boolOp _ _ vs => exprs vs
  | .named _ t v => do
    notInAnnotation
    let b ← current
    if 0 < b.inIterated then malformed
    if b.isComprehension then
      match t with
      | .name _ id => bindOutside id
      | _ => pure ()
    expr v
    target t
  | .binOp _ l _ r => do
    expr l
    expr r
  | .unaryOp _ _ e => expr e
  | .lambda _ ps body => do
    defaults ps
    inside "lambda" .function false (← current).owner do
      paramNames ps
      expr body
  | .ifExp _ t b e => do
    expr t
    expr b
    expr e
  | .dict _ items => do
    dictKeys items
    dictValues items
  | .set _ es => exprs es
  | .listComp _ e gs => do
    firstIterated gs
    inside "listcomp" .function true (← current).owner do
      comprehensionStart
      loops gs
      expr e
  | .setComp _ e gs => do
    firstIterated gs
    inside "setcomp" .function true (← current).owner do
      comprehensionStart
      loops gs
      expr e
  | .dictComp _ k v gs => do
    firstIterated gs
    inside "dictcomp" .function true (← current).owner do
      comprehensionStart
      loops gs
      expr v
      expr k
  | .generatorExp _ e gs => do
    firstIterated gs
    inside "genexpr" .function true (← current).owner do
      comprehensionStart
      loops gs
      expr e
  | .await _ v => do
    notInAnnotation
    expr v
  | .yield _ v => do
    notInAnnotation
    optional v
    if (← current).isComprehension then malformed
  | .yieldFrom _ v => do
    notInAnnotation
    expr v
    if (← current).isComprehension then malformed
  | .compare _ l rest => do
    expr l
    compared rest
  | .call _ f as ks => do
    expr f
    exprs as
    keywords ks
  | .formatted _ v _ s => do
    expr v
    optional s
  | .joined _ vs => exprs vs
  | .constant .. => pure ()
  | .attr _ v _ => expr v
  | .subscript _ v s => do
    expr v
    expr s
  | .starred _ v => expr v
  | .name _ id => useName id
  | .list _ es => exprs es
  | .tuple _ es => exprs es
  | .slice _ l u s => do
    optional l
    optional u
    optional s

def exprs : List Expr → Read Unit
  | [] => pure ()
  | e :: es => do
    expr e
    exprs es

def optional : Option Expr → Read Unit
  | none => pure ()
  | some e => expr e

def optionals : List (Option Expr) → Read Unit
  | [] => pure ()
  | e :: es => do
    optional e
    optionals es

def target : Expr → Read Unit
  | .name _ id => bindName id
  | .starred _ v => target v
  | .tuple _ es => targets es
  | .list _ es => targets es
  | .attr _ v _ => expr v
  | .subscript _ v s => do
    expr v
    expr s
  | _ => pure ()

def targets : List Expr → Read Unit
  | [] => pure ()
  | e :: es => do
    target e
    targets es

def compared : List (CompareOp × Expr) → Read Unit
  | [] => pure ()
  | (_, e) :: es => do
    expr e
    compared es

def dictKeys : List (Option Expr × Expr) → Read Unit
  | [] => pure ()
  | (k, _) :: is => do
    optional k
    dictKeys is

def dictValues : List (Option Expr × Expr) → Read Unit
  | [] => pure ()
  | (_, v) :: is => do
    expr v
    dictValues is

def keywords : List (Keyword Expr) → Read Unit
  | [] => pure ()
  | { loc := _, arg := _, value } :: ks => do
    expr value
    keywords ks

/-- The defaults of parameters belong to the enclosing block. -/
def defaults : Params Expr → Read Unit
  | { posOnly := _, plain := _, vararg := _, kwOnly := _, kwDefaults, kwarg := _
      defaults := ds } => do
    exprs ds
    optionals kwDefaults

/-- The outermost iterated expression belongs to the enclosing block. -/
def firstIterated : List (Generator Expr) → Read Unit
  | [] => pure ()
  | { target := _, iter, ifs := _, isAsync := _ } :: _ => iterated (expr iter)

def loops : List (Generator Expr) → Read Unit
  | [] => pure ()
  | { target := t, iter := _, ifs, isAsync := _ } :: gs => do
    onCurrent fun b => { b with inTarget := true }
    target t
    onCurrent fun b => { b with inTarget := false }
    exprs ifs
    innerLoops gs

def innerLoops : List (Generator Expr) → Read Unit
  | [] => pure ()
  | { target := t, iter, ifs, isAsync := _ } :: gs => do
    onCurrent fun b => { b with inTarget := true }
    target t
    onCurrent fun b => { b with inTarget := false }
    iterated (expr iter)
    exprs ifs
    innerLoops gs

end

/-! ### Statements -/

mutual

def pattern : Pattern → Read Unit
  | .value _ e => expr e
  | .singleton .. => pure ()
  | .sequence _ ps => patterns ps
  | .mapping _ ks ps rest => do
    exprs ks
    patterns ps
    rest.forM bindName
  | .cls _ c ps _ aps => do
    expr c
    patterns ps
    patterns aps
  | .star _ id => id.forM bindName
  | .asName _ p id => do
    optionalPattern p
    id.forM bindName
  | .or _ ps => patterns ps

def patterns : List Pattern → Read Unit
  | [] => pure ()
  | p :: ps => do
    pattern p
    patterns ps

def optionalPattern : Option Pattern → Read Unit
  | none => pure ()
  | some p => pattern p

end

def hints (ps : Params Expr) (returns : Option Expr) : Read Unit := do
  hintBlock do
    for p in ps.posOnly ++ ps.plain ++ ps.vararg.toList ++ ps.kwarg.toList ++ ps.kwOnly do
      optional p.hint
  match returns with
  | some r => hintBlock (expr r)
  | none => pure ()

def imported (a : Alias) : Read Unit := do
  let name := a.asname.getD a.name
  if name = "*" then
    unless (← current).kind = .program do malformed
  else use ((Text.components name).headD name) { isImported := true }

def declare (u : Use) (name : String) : Read Unit := do
  let old ← seen name
  if old.isParam || old.isLocal || old.isUsed || old.isAnnotated then malformed
  use name u

def annotatedTarget (t : Expr) (hasValue simple : Bool) : Read Unit := do
  match t with
  | .name _ id =>
    let old ← seen id
    if (old.isGlobal || old.isNonlocal) && (← current).kind ≠ .program && simple then malformed
    if simple then use id { isAnnotated := true, isLocal := true }
    else if hasValue then bindName id
  | t => target t

mutual

def stmt : Stmt → Read Unit
  | .functionDef { loc := _, isAsync := _, name, params := ps, body, decorators, returns } => do
    bindName name
    defaults ps
    hints ps returns
    exprs decorators
    inside name .function false (← current).owner do
      paramNames ps
      stmts body
  | .classDef { loc := _, name, bases, keywords := ks, body, decorators } => do
    bindName name
    exprs bases
    keywords ks
    exprs decorators
    inside name .cls false (some name) (stmts body)
  | .ret _ v => optional v
  | .delete _ ts => targets ts
  | .assign _ ts v => do
    targets ts
    expr v
  | .augAssign _ t _ v => do
    target t
    expr v
  | .annAssign _ t a v simple => do
    annotatedTarget t v.isSome simple
    hintBlock (expr a)
    optional v
  | .forLoop _ _ t i body orelse => do
    target t
    expr i
    stmts body
    stmts orelse
  | .whileLoop _ t body orelse => do
    expr t
    stmts body
    stmts orelse
  | .ifThen _ t body orelse => do
    expr t
    stmts body
    stmts orelse
  | .withBlock _ _ items body => do
    for i in items do
      expr i.context
      match i.target with
      | some t => target t
      | none => pure ()
    stmts body
  | .matchOn _ s cs => do
    expr s
    cases cs
  | .raise _ e c => do
    optional e
    optional c
  | .tryBlock _ _ body hs orelse finalbody => do
    stmts body
    stmts orelse
    handlers hs
    stmts finalbody
  | .assert _ t m => do
    expr t
    optional m
  | .importing i => i.names.forM imported
  | .globalNames _ ns => ns.forM (declare { isGlobal := true })
  | .nonlocalNames _ ns => ns.forM (declare { isNonlocal := true })
  | .expr _ v => expr v
  | .pass _ | .breakLoop _ | .continueLoop _ => pure ()

def stmts : List Stmt → Read Unit
  | [] => pure ()
  | s :: ss => do
    stmt s
    stmts ss

def handlers : List (Handler Stmt) → Read Unit
  | [] => pure ()
  | { loc := _, type, name, body } :: hs => do
    optional type
    name.forM bindName
    stmts body
    handlers hs

def cases : List (Case Stmt) → Read Unit
  | [] => pure ()
  | { pattern := p, guard, body } :: cs => do
    pattern p
    optional guard
    stmts body
    cases cs

end

/-! ### Scopes -/

/-- What a name of a block does to the names bound around the block and to its own. -/
def resolve (s : Option Names × Names) (entry : String × Use) : Option (Option Names × Names) :=
  let (bound, locals) := s
  let (name, u) := entry
  if u.isGlobal then
    if u.isNonlocal then none else some (bound.map (·.erase name), locals)
  else if u.isNonlocal then
    match bound with
    | some b => if b.contains name then some s else none
    | none => none
  else if u.isBound then some (bound, locals.insertEnd name)
  else some s

mutual

def fits (bound : Option Names) : Block → Bool
  | .mk _ kind uses children =>
    match uses.foldlM resolve (bound, []) with
    | none => false
    | some (after, locals) =>
      let inner := match kind with
        | .cls => "__class__" :: bound.getD []
        | .function => Names.union (after.getD []) locals
        | _ => after.getD []
      allFit inner children

def allFit (bound : Names) : List Block → Bool
  | [] => true
  | b :: bs => fits (some bound) b && allFit bound bs

end

mutual

def ofBlock : Block → SymbolTable
  | .mk name kind _ children => .mk name kind (ofBlocks children)

def ofBlocks : List Block → List SymbolTable
  | [] => []
  | b :: bs => ofBlock b :: ofBlocks bs

end

/-! ### Programs -/

def futureFeatures : List String :=
  ["nested_scopes", "generators", "division", "absolute_import", "with_statement", "print_function",
   "unicode_literals", "barry_as_FLUFL", "generator_stop", "annotations"]

def futures (body : List Stmt) : List String :=
  let body := match body with
    | .expr _ (.constant _ (.str _) _) :: rest => rest
    | body => body
  let isFuture : Stmt → Bool
    | .importing (.fromModule _ (some "__future__") _ _) => true
    | _ => false
  (body.takeWhile isFuture).flatMap fun
    | .importing i => i.names.map (·.name)
    | _ => []

def ofProgram (body : List Stmt) : Except CodeFault SymbolTable := do
  let features := futures body
  if !features.all futureFeatures.contains then throw .malformed
  let start : Reading :=
    { blocks := [{ name := "top", kind := .program, owner := none }]
      lateAnnotations := features.contains "annotations" }
  let (_, r) ← (stmts body).run start
  match r.blocks with
  | [b] =>
    let block : Block := .mk b.name .program b.uses.entries b.children
    if fits none block then return ofBlock block else throw .malformed
  | _ => throw .malformed

end SymbolTable

end SinkTrace
