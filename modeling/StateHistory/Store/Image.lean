import StateHistory.Store.Basic

/-!
# Images of a store

An image is what is kept of a closed store: the entries of its tree, the closed intervals of each
attribute, and the bounds. A store can be restored from any image whose entries form a tree and
which has intervals for each of them; what the intervals say is not looked at.
-/

namespace StateHistory

/-- The lasting data of a store. -/
structure Image where
  attributes : List Entry
  intervals : List (List Interval)
  start : Option Time
  stop : Option Time
deriving DecidableEq, Repr, Inhabited

namespace Store

def image (s : Store) : Image where
  attributes := s.tree.entries
  intervals := s.timelines.toList.map (·.closed.toList)
  start := s.start
  stop := s.stop

/-- The closed store with the data of an image. -/
def ofImage (image : Image) : Except Failure Store := do
  let tree ← Tree.ofEntries image.attributes
  if image.intervals.length ≠ tree.size then
    throw (.persistence (toString tree.size ++ " attributes but " ++
      toString image.intervals.length ++ " histories"))
  return {
    tree
    timelines := (image.intervals.map fun ivs => { closed := ivs.toArray }).toArray
    start := image.start
    stop := image.stop
    closed := true }

end Store

end StateHistory
