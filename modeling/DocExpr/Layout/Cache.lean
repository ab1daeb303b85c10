import DocExpr.Layout.Writer

/-!
# Writing with a cache

A writer that is used for several trees decides the spacing of each node once and keeps it by the
address of the node. A `Memory` says which node stands at an address and where its parts stand.
`Memory.spacing` decides the spacing of a node, `Memory.write` and `Memory.writeFile` write a tree,
and `Memory.runAll` does such tasks one after the other, with one cache for all of them.
-/

namespace DocExpr

open DocExpr.Expr

/-- The nodes at some addresses. Each part of a node has an address of its own. -/
structure Memory (α : Type) where
  node : α → Expr
  /-- The address of a part of the node at an address. -/
  part : α → Nat → α
  node_part (a : α) (i : Nat) (h : i < (node a).children.length) :
    node (part a i) = (node a).children[i]

/-- The node at the end of a path into a tree, which says in reverse which part is next. A path that
leads out of the tree ends at the last node on it. -/
def Expr.follow (e : Expr) : List Nat → Expr
  | [] => e
  | i :: path => (e.follow path).children[i]?.getD (e.follow path)

/-- The nodes of a tree, by the paths to them. -/
def Memory.ofTree (e : Expr) : Memory (List Nat) where
  node := e.follow
  part path i := i :: path
  node_part path i h := by rw [follow, List.getElem?_eq_getElem h, Option.getD_some]

/-- The spacings that are known, by the addresses of their nodes. -/
def Cache (α : Type) : Type := α → Option Spacing

variable {α : Type}

namespace Cache

/-- The cache of a new writer. -/
def empty : Cache α := fun _ => none

/-- Deciding a spacing with what is known. -/
abbrev Query (α : Type) : Type := Cache α → Spacing × Cache α

/-- What some parts make of the spacing of a node. They are asked for their spacings one after the
other, until one of them needs blank lines. -/
def widen (s : Spacing) : List (Query α) → Query α
  | [], cache => (s, cache)
  | part :: parts, cache =>
    match part cache with
    | (.blankLines, cache) => (.blankLines, cache)
    | (.lines, cache) => widen .lines parts cache
    | (.inline, cache) => widen s parts cache

/-- Decides the spacing of a node. If it needs blank lines itself, its parts are not asked. -/
def calculate (e : Expr) (parts : List (Query α)) : Query α := fun cache =>
  match e.ownSpacing with
  | .blankLines => (.blankLines, cache)
  | s => widen s parts cache

variable [DecidableEq α]

/-- Keeps the spacing of the node at an address. -/
def insert (cache : Cache α) (a : α) (s : Spacing) : Cache α :=
  fun b => if b = a then some s else cache b

/-- The spacing of the node at an address, which is decided and kept unless it is known. -/
def remember (a : α) (query : Query α) : Query α := fun cache =>
  match cache a with
  | some s => (s, cache)
  | none => ((query cache).1, (query cache).2.insert a (query cache).1)

end Cache

open Cache

/-- A page that a writer is busy with, and what it knows. -/
structure Desk (α : Type) where
  page : Page
  cache : Cache α

namespace Desk

/-- Does something with the page. -/
def onPage (f : Page → Page) (d : Desk α) : Desk α := { d with page := f d.page }

/-- Writes a part of the page one level deeper if the innermost grouping breaks lines. -/
def indentedIfSpaced (d : Desk α) (body : Desk α → Desk α) : Desk α :=
  if d.page.mode != .inline then (body (d.onPage .indentMore)).onPage .indentLess else body d

/-- Writes a part of the page as a grouping. -/
def spaced (d : Desk α) (mode : Spacing) (body : Desk α → Desk α) : Desk α :=
  (body (d.onPage (·.pushMode mode))).onPage .popMode

/-- Asks for a spacing. -/
def ask (d : Desk α) (query : Query α) : Spacing × Desk α :=
  ((query d.cache).1, { d with cache := (query d.cache).2 })

/-- Writes the items of a group in parentheses. The spacing is decided before the first of them. -/
def parenthesized (d : Desk α) (query : Query α) (items : Desk α → Desk α) : Desk α :=
  let (mode, d) := d.ask query
  ((d.onPage (·.append "(")).spaced mode fun d =>
    (d.onPage .verticalSpacing).indentedIfSpaced items).onPage (·.append ")")

end Desk

namespace Memory

variable [DecidableEq α] (m : Memory α)

mutual

/-- Decides the spacing of a tree at an address. -/
def query : Expr → α → Query α
  | e@(atom ..), a | e@(block ..), a => remember a (calculate e [])
  | e@(suffixed _ item _), a => remember a (calculate e [query item (m.part a 0)])
  | e@(map item key _), a =>
    remember a (calculate e [query item (m.part a 0), query key (m.part a 1)])
  | e@(call callee arguments _), a =>
    remember a (calculate e [query callee (m.part a 0), query arguments (m.part a 1)])
  | e@(array elements _), a => remember a (calculate e (queryAll elements a 0))
  | e@(group items _), a => remember a (calculate e (queryAll items a 0))
  | e@(chain _ operands _), a => remember a (calculate e (queryAll operands a 0))
  | e@(unary _ operand _), a => remember a (calculate e [query operand (m.part a 0)])

/-- Decides the spacings of trees that are the parts of a node from a number on. -/
def queryAll : List Expr → α → Nat → List (Query α)
  | [], _, _ => []
  | e :: es, a, i => query e (m.part a i) :: queryAll es a (i + 1)

end

mutual

/-- Writes a tree at an address. -/
def writeAt : Expr → α → Desk α → Desk α
  | e@(atom ..), _, d | e@(block ..), _, d => d.onPage e.write
  | suffixed form item _, a, d => (writeAt item (m.part a 0) d).onPage (·.append form.text)
  | map item key _, a, d =>
    (writeAt key (m.part a 1) ((writeAt item (m.part a 0) d).onPage (·.append "\x7b"))).onPage
      (·.append "\x7d")
  | call callee arguments@(group items _) _, a, d =>
    (writeAt callee (m.part a 0) d).parenthesized (m.query arguments (m.part a 1))
      (writeItems items (m.part a 1) 0)
  | call callee arguments _, a, d =>
    (writeAt callee (m.part a 0) d).parenthesized (m.query arguments (m.part a 1)) fun d =>
      (writeAt arguments (m.part a 1) d).onPage .verticalSpacing
  | array elements _, a, d =>
    (writeSeparated ", " elements a 0 (d.onPage (·.append "["))).onPage (·.append "]")
  | e@(group items _), a, d => d.parenthesized (m.query e a) (writeItems items a 0)
  | e@(chain .union operands _), a, d =>
    let (mode, d) := d.ask (m.query e a)
    d.spaced mode (writeUnion true operands a 0)
  | chain op operands _, a, d => writeSeparated op.separator operands a 0 d
  | unary op operand _, a, d => writeAt operand (m.part a 0) (d.onPage (·.append op.text))

/-- Writes parts of a node from a number on, with a text between each two. -/
def writeSeparated (separator : String) : List Expr → α → Nat → Desk α → Desk α
  | [], _, _, d => d
  | [e], a, i, d => writeAt e (m.part a i) d
  | e :: es, a, i, d =>
    writeSeparated separator es a (i + 1) ((writeAt e (m.part a i) d).onPage (·.append separator))

/-- Writes parts of a node from a number on as items. -/
def writeItems : List Expr → α → Nat → Desk α → Desk α
  | [], _, _, d => d.onPage .verticalSpacing
  | [e], a, i, d => (writeAt e (m.part a i) d).onPage .verticalSpacing
  | e :: es, a, i, d =>
    writeItems es a (i + 1)
      (((writeAt e (m.part a i) d).onPage (·.append ", ")).onPage .verticalSpacing)

/-- Writes parts of a node from a number on as the operands of a union. -/
def writeUnion (first : Bool) : List Expr → α → Nat → Desk α → Desk α
  | [], _, _, d => d
  | e :: es, a, i, d =>
    writeUnion false es a (i + 1) ((d.onPage .verticalSpacing).indentedIfSpaced fun d =>
      writeAt e (m.part a i) (if first then d else d.onPage (·.append " | ")))

end

/-- Decides the spacing of the node at an address. -/
def spacing (a : α) : Query α := m.query (m.node a) a

/-- Writes the tree at an address. -/
def write (a : α) (d : Desk α) : Desk α := m.writeAt (m.node a) a d

/-- Writes the tree at an address as the items of a file. -/
def writeFile (a : α) (d : Desk α) : Desk α :=
  let (mode, d) := d.ask (m.spacing a)
  d.spaced mode fun d =>
    match m.node a with
    | group items _ => m.writeItems items a 0 d
    | _ => (m.write a d).onPage .verticalSpacing

/-- What can be asked of a writer. Each page that it writes on is a new one to it. -/
inductive Task (α : Type) where
  | spacing (a : α)
  | write (a : α) (p : Page)
  | writeFile (a : α) (p : Page)

/-- What a writer knows behind a task. -/
def run : Task α → Cache α → Cache α
  | .spacing a, cache => (m.spacing a cache).2
  | .write a p, cache => (m.write a ⟨p, cache⟩).cache
  | .writeFile a p, cache => (m.writeFile a ⟨p, cache⟩).cache

/-- What a new writer knows behind some tasks. -/
def runAll (tasks : List (Task α)) : Cache α :=
  tasks.foldl (fun cache task => m.run task cache) .empty

end Memory

end DocExpr
