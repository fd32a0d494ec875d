/-!
# Disjoint sets

A forest over the numbers below a bound.  `find` gives the root of a number's tree and shortens the
path to it, `union` joins two trees by hanging the root of smaller rank below the other, and
`groups` lists the trees' members.  A rank is kept in one byte, so it stays at 255 once it is there.
-/

namespace PatternGraph

/-- A forest over the numbers below `parent.size`; a root is its own parent. -/
structure DisjointSet where
  parent : Array Nat
  rank : Array Nat
deriving DecidableEq, Repr, Inhabited

namespace DisjointSet

/-- The sets of one element each, over the numbers below `n`. -/
def singletons (n : Nat) : DisjointSet :=
  ⟨Array.range n, Array.replicate n 0⟩

/-- The number of elements. -/
def size (s : DisjointSet) : Nat :=
  s.parent.size

/-- The parent of an element; a number outside the forest is its own parent. -/
def parentOf (s : DisjointSet) (x : Nat) : Nat :=
  s.parent.getD x x

/-- The rank of an element. -/
def rankOf (s : DisjointSet) (x : Nat) : Nat :=
  s.rank.getD x 0

/-- Climbs from an element towards its root by at most `fuel` steps. -/
def climb (s : DisjointSet) : Nat → Nat → Nat
  | 0, x => x
  | fuel + 1, x => if s.parentOf x = x then x else climb s fuel (s.parentOf x)

/-- The root of an element's tree; no path is longer than the number of elements. -/
def rootOf (s : DisjointSet) (x : Nat) : Nat :=
  s.climb s.size x

/-- Hangs an element below another one. -/
def hang (s : DisjointSet) (x root : Nat) : DisjointSet :=
  { s with parent := s.parent.setIfInBounds x root }

/-- Hangs every element of a path directly below the path's root. -/
def compress (s : DisjointSet) (root : Nat) : Nat → Nat → DisjointSet
  | 0, _ => s
  | fuel + 1, x =>
    if s.parentOf x = root then s
    else compress (s.hang x root) root fuel (s.parentOf x)

/-- The root of an element, and the forest with the path to it shortened. -/
def find (s : DisjointSet) (x : Nat) : Nat × DisjointSet :=
  let root := s.rootOf x
  (root, s.compress root s.size x)

/-- The largest rank that is kept. -/
def rankLimit : Nat := 255

/-- Joins the sets of two elements, and tells whether they were apart. -/
def union (s : DisjointSet) (x y : Nat) : Bool × DisjointSet :=
  let (x, s) := s.find x
  let (y, s) := s.find y
  if x = y then (false, s)
  else if s.rankOf x < s.rankOf y then (true, s.hang x y)
  else if s.rankOf y < s.rankOf x then (true, s.hang y x)
  else
    let s := s.hang y x
    (true, { s with rank := s.rank.setIfInBounds x (min rankLimit (s.rankOf x + 1)) })

/-- Adds an element to the group of its root, which is opened if there is none yet. -/
def place (root x : Nat) : List (Nat × List Nat) → List (Nat × List Nat)
  | [] => [(root, [x])]
  | (r, members) :: rest =>
    if r = root then (r, x :: members) :: rest else (r, members) :: place root x rest

/-- Finds the listed elements one after the other and collects them by root. -/
def gather : List Nat → DisjointSet → List (Nat × List Nat) → List (Nat × List Nat) × DisjointSet
  | [], s, groups => (groups, s)
  | x :: rest, s, groups =>
    let (root, s) := s.find x
    gather rest s (place root x groups)

/-- The sets, ordered by their least members, each in ascending order. -/
def groups (s : DisjointSet) : List (List Nat) × DisjointSet :=
  let (groups, s) := gather (List.range s.size) s []
  (groups.map fun group => group.2.reverse, s)

end DisjointSet

end PatternGraph
