/-
  ComponentSite.ScopeClass — the class that marks the elements and fragments of one
  component.

  Under the hashed strategy it is the start of the digest of the source path, the
  same in every compile. Under the random strategy each compile has a seed of its
  own, and the class is drawn from the digest of seed and path.
-/
import ComponentSite.Path
import ComponentSite.Sha256

namespace ComponentSite

inductive ScopeStrategy
  | random
  | hashed
  deriving DecidableEq, Repr

def ScopeStrategy.name : ScopeStrategy → String
  | random => "random"
  | hashed => "hashed"

namespace ScopeClass

def lead : String := "goo-"

def size : Nat := 8

def alphabet : List Char := "0123456789abcdefghijklmnopqrstuvwxyz".toList

def hashed (path : Path) : String :=
  lead ++ String.ofList ((Sha256.hexDigest path.text.toUTF8.toList).take size)

def drawn (seed : Nat) (path : Path) : String :=
  let draws := Sha256.digest (toString seed ++ ":" ++ path.text).toUTF8.toList
  lead ++ String.ofList (draws.take size |>.map fun w => alphabet.getD (w.toNat % alphabet.length) '0')

end ScopeClass

/-- The class of each source under a strategy, in the compile with this seed. -/
def ScopeStrategy.classOf (strategy : ScopeStrategy) (seed : Nat) (path : Path) : String :=
  match strategy with
  | random => ScopeClass.drawn seed path
  | hashed => ScopeClass.hashed path

end ComponentSite
