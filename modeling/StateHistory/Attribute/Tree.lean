import StateHistory.Attribute.Quark
import StateHistory.Failure

/-!
# Attribute trees

The attributes of a state system form a tree of named nodes. Nodes are numbered in the order of
their creation and never removed, so a parent always comes before its children. A path names an
attribute by the names of the nodes on the way down.
-/

namespace StateHistory

/-- One attribute: its name, its parent (the root has none) and its children as they were
created. -/
structure Node where
  name : String
  parent : Option Quark
  children : List Quark
deriving DecidableEq, Repr, Inhabited

/-- A node without its children: enough to build the tree again. -/
structure Entry where
  name : String
  parent : Option Quark
deriving DecidableEq, Repr, Inhabited

/-- The attributes of one state system, each at the place its quark names. -/
structure Tree where
  nodes : Array Node
deriving DecidableEq, Repr

namespace Tree

/-- The tree that holds only the root. -/
def empty : Tree := ⟨#[⟨"", none, []⟩]⟩

instance : Inhabited Tree := ⟨empty⟩

/-- The number of attributes, the root included. -/
def size (t : Tree) : Nat := t.nodes.size

def node? (t : Tree) (q : Quark) : Option Node := t.nodes[q.index]?

def contains (t : Tree) (q : Quark) : Bool := decide (q.index < t.nodes.size)

/-- The node of a quark. -/
def node (t : Tree) (q : Quark) : Except Failure Node :=
  match t.node? q with
  | some n => .ok n
  | none => .error (.invalidQuark q)

def childrenOf (t : Tree) (q : Quark) : List Quark :=
  match t.node? q with
  | some n => n.children
  | none => []

def isNamed (t : Tree) (name : String) (q : Quark) : Bool :=
  match t.node? q with
  | some n => n.name == name
  | none => false

/-- The child of `q` with the given name; of several, the one created last. -/
def child? (t : Tree) (q : Quark) (name : String) : Option Quark :=
  (t.childrenOf q).reverse.find? (t.isNamed name)

/-- Follows a path down from `q`. -/
def descend (t : Tree) (q : Quark) : List String → Option Quark
  | [] => some q
  | name :: path =>
    match t.child? q name with
    | some c => t.descend c path
    | none => none

/-- The attribute at the path `path` below `base`. -/
def find? (t : Tree) (base : Quark) (path : List String) : Option Quark :=
  if t.contains base then t.descend base path else none

/-- Adds a node under `parent`; its quark is the next free one. -/
def addChild (t : Tree) (parent : Quark) (name : String) : Quark × Tree :=
  let q : Quark := ⟨t.nodes.size⟩
  let nodes := t.nodes.modify parent.index fun n => { n with children := n.children ++ [q] }
  (q, ⟨nodes.push ⟨name, some parent, []⟩⟩)

/-- Follows a path down from `q`, adding the nodes it lacks. -/
def grow (t : Tree) (q : Quark) : List String → Quark × Tree
  | [] => (q, t)
  | name :: path =>
    match t.child? q name with
    | some c => t.grow c path
    | none =>
      let (c, t) := t.addChild q name
      t.grow c path

/-- The attribute at the path `path` below `base`, created where it is missing. -/
def ensure (t : Tree) (base : Quark) (path : List String) : Except Failure (Quark × Tree) :=
  if t.contains base then .ok (t.grow base path) else .error (.invalidQuark base)

/-- The names from the root down to `q`, found by walking up at most `fuel` parents. -/
def climb (t : Tree) : Nat → Quark → List String → List String
  | 0, _, below => below
  | fuel + 1, q, below =>
    match t.node? q with
    | some ⟨name, some parent, _⟩ => t.climb fuel parent (name :: below)
    | _ => below

/-- The path of `q` from the root, which itself has the empty path. Every parent has a smaller
quark, so the walk up ends within `q.index` steps. -/
def path (t : Tree) (q : Quark) : Except Failure (List String) :=
  if t.contains q then .ok (t.climb q.index q []) else .error (.invalidQuark q)

/-- The names of a path with slashes between them. -/
def joinPath (path : List String) : String := "/".intercalate path

/-- The path of `q` as text. -/
def pathText (t : Tree) (q : Quark) : Except Failure String := (t.path q).map joinPath

/-- Visits the quarks of a worklist, putting the children of each in front of the rest. -/
def visit (t : Tree) : Nat → List Quark → List Quark
  | 0, _ => []
  | _ + 1, [] => []
  | fuel + 1, q :: pending => q :: t.visit fuel (t.childrenOf q ++ pending)

/-- The children of `q`, or every attribute below it, each before its own children. No attribute is
visited twice, so there are at most as many visits as attributes. -/
def below (t : Tree) (q : Quark) (recursive : Bool) : Except Failure (List Quark) := do
  let n ← t.node q
  return if recursive then t.visit t.size n.children else n.children

/-- The segment of a pattern that stands for any child. -/
def anyChild : String := "*"

/-- The segment of a pattern that stands for the parent. -/
def toParent : String := ".."

/-- The attributes one step of a pattern away from `q`. -/
def follow (t : Tree) (segment : String) (q : Quark) : List Quark :=
  if segment = anyChild then t.childrenOf q
  else if segment = toParent then ((t.node? q).bind (·.parent)).toList
  else (t.child? q segment).toList

/-- Quarks in ascending order, each once. -/
def sorted (qs : List Quark) : List Quark :=
  (qs.mergeSort fun a b => decide (a.index ≤ b.index)).eraseReps

/-- The attributes that some walk along `pattern` reaches from `base`, in ascending order. -/
def select (t : Tree) (base : Quark) (pattern : List String) : Except Failure (List Quark) :=
  if t.contains base then
    .ok (pattern.foldl (fun qs segment => sorted (qs.flatMap (t.follow segment))) [base])
  else .error (.invalidQuark base)

/-- The nodes without their children, in the order of their quarks. -/
def entries (t : Tree) : List Entry := t.nodes.toList.map fun n => ⟨n.name, n.parent⟩

/-- Adds the entries of the quarks from `t.size` on. Each needs a parent that is there already. -/
def extend (t : Tree) : List Entry → Except Failure Tree
  | [] => .ok t
  | e :: rest =>
    match e.parent with
    | none =>
      .error (.persistence ("attribute " ++ toString t.size ++ " has no parent"))
    | some parent =>
      if t.size ≤ parent.index then
        .error (.persistence
          ("attribute " ++ toString t.size ++ " precedes its parent " ++ parent.text))
      else (t.addChild parent e.name).2.extend rest

/-- The tree with the given entries. The first stands for the root, whatever it says. -/
def ofEntries (entries : List Entry) : Except Failure Tree := empty.extend (entries.drop 1)

end Tree

end StateHistory
