import Worksheet.Position.Basic

/-!
# Which cells a cell reads

* `ReadGraph`          what each position reads, with a list of all positions that read anything;
* `firstFound`         the first success of a search along a list, with the state it leaves;
* `ReadGraph.search`   the positions seen, and a path to `origin`, of a depth-first search;
* `ReadGraph.findCycle` a path from `target` to `origin` along which each position reads the next.

A formula at `origin` that begins to read `target` closes a cycle exactly if there is such a path.
A search that would go deeper than it may has no outcome.  No position is entered twice, so it is
never deeper than there are positions that read anything, and one more.
-/

namespace Worksheet

structure ReadGraph where
  reads : Position → List Position
  readers : List Position
  reads_eq_nil : ∀ p, p ∉ readers → reads p = []

/-! ## searching a list -/

def firstFound {σ α β : Type} (f : σ → α → Option (σ × Option β)) :
    σ → List α → Option (σ × Option β)
  | s, [] => some (s, none)
  | s, a :: as =>
    match f s a with
    | some (s, none) => firstFound f s as
    | outcome => outcome

namespace ReadGraph

/-! ## searching a graph -/

def search (reads : Position → List Position) (origin : Position) :
    Nat → List Position → Position → Option (List Position × Option (List Position))
  | 0, _, _ => none
  | depth + 1, seen, p =>
    if p = origin then some (seen, some [p])
    else if p ∈ seen then some (seen, none)
    else
      (firstFound (search reads origin depth) (p :: seen) (reads p)).map fun (seen, path) =>
        (seen, path.map (p :: ·))

def findCycle (g : ReadGraph) (origin target : Position) : Option (List Position) :=
  (search g.reads origin (g.readers.length + 1) [] target).bind Prod.snd

end ReadGraph

end Worksheet
