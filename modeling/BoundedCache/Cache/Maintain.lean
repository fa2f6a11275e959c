import BoundedCache.Cache.Drain

namespace BoundedCache

namespace Cache

def setCapacity (courier : Courier) (capacity : Nat) (c : Cache) :
    Reply (Except Error Unit) × Cache :=
  if capacity = 0 then (.returned (.error .invalidCapacity), c)
  else if c.lockHeld then (.blocked, c)
  else (.returned (.ok ()), { c with capacity }.drain courier)

def cleanUp (courier : Courier) (c : Cache) : Reply Unit × Cache :=
  if c.lockHeld then (.blocked, c) else (.returned (), c.drain courier)

/-- What a clearing leaves before it delivers, and the number of entries it retired. Nobody is
notified of them. -/
def cleared (c : Cache) : Nat × Cache :=
  let (n, engine) := c.engine.clear
  (n, { c with engine, published := engine.deque.weightedSize })

def clear (courier : Courier) (c : Cache) : Reply Nat × Cache :=
  if c.lockHeld then (.blocked, c)
  else
    let (n, c) := c.cleared
    (.returned n, (courier c).2)

end Cache

end BoundedCache
