import BoundedCache.Cache.Drain

namespace BoundedCache

namespace Cache

def get (key : Key) (c : Cache) : Option Value × Cache :=
  match c.lookup key with
  | none => (none, c.count fun n => { n with misses := n.misses + 1 })
  | some (id, value) =>
    (some value, (c.count fun n => { n with hits := n.hits + 1 }).recordRead id)

def getQuietly (key : Key) (c : Cache) : Option Value := (c.lookup key).map (·.2)

def contains (key : Key) (c : Cache) : Bool := (c.lookup key).isSome

end Cache

end BoundedCache
