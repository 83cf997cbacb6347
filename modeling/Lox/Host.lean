import Lox.Host.Console
import Lox.Host.FileSystem

/-!
What a program finds outside of itself. Not all of it need be known: a step that depends on what is
not known fails, and says what it waits for.
-/

namespace Lox

/-- What has to be known before a program can go on. -/
inductive Awaited where
  | input
  | path (path : String)
  deriving Repr, DecidableEq

structure Host where
  console : Console := {}
  files : FileSystem := .ofEntries []
  /-- The seconds that the clock shows. -/
  clock : Float := 1
  /-- The paths of which it is known what they lead to, unless that is known of all. -/
  explored : Option (List String) := none

def Host.knows (host : Host) (path : String) : Bool := host.explored.all (·.contains path)

end Lox
