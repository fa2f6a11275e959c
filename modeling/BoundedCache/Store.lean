import BoundedCache.Assoc
import BoundedCache.Gauge
import BoundedCache.Pool

namespace BoundedCache

/-- Maps keys to nodes. The conditional operations ask for the identity of the mapped node: a node
with the same key and value is another node. -/
structure Store where
  entries : List (Key × NodeId) := []
  mapped : Gauge := {}
  deriving DecidableEq, Repr

namespace Store

def size (s : Store) : Nat := s.mapped.value

def get? (s : Store) (key : Key) : Option NodeId := s.entries.lookup key

def nodes (s : Store) : List NodeId := s.entries.map (·.2)

def insertIfAbsent (s : Store) (key : Key) (id : NodeId) : Except NodeId Store :=
  match s.get? key with
  | some resident => .error resident
  | none => .ok { entries := Assoc.put key id s.entries, mapped := s.mapped.add 1 }

def remove (s : Store) (key : Key) : Option (NodeId × Store) :=
  (s.get? key).map fun id => (id, { entries := Assoc.drop key s.entries, mapped := s.mapped.sub 1 })

def removeIfMatch (s : Store) (key : Key) (expected : NodeId) : Option Store :=
  if s.get? key = some expected then
    some { entries := Assoc.drop key s.entries, mapped := s.mapped.sub 1 }
  else none

def replaceIfMatch (s : Store) (key : Key) (expected id : NodeId) : Option Store :=
  if s.get? key = some expected then some { s with entries := Assoc.put key id s.entries } else none

theorem get?_insertIfAbsent {s t : Store} {key : Key} {id : NodeId}
    (h : s.insertIfAbsent key id = .ok t) (other : Key) :
    t.get? other = if other = key then some id else s.get? other := by
  unfold insertIfAbsent at h
  split at h
  · cases h
  · cases h
    exact Assoc.lookup_put ..

theorem get?_removeIfMatch {s t : Store} {key : Key} {id : NodeId}
    (h : s.removeIfMatch key id = some t) (other : Key) :
    t.get? other = if other = key then none else s.get? other := by
  unfold removeIfMatch at h
  split at h
  · cases h
    exact Assoc.lookup_drop ..
  · cases h

theorem get?_replaceIfMatch {s t : Store} {key : Key} {expected id : NodeId}
    (h : s.replaceIfMatch key expected id = some t) (other : Key) :
    t.get? other = if other = key then some id else s.get? other := by
  unfold replaceIfMatch at h
  split at h
  · cases h
    exact Assoc.lookup_put ..
  · cases h

end Store

end BoundedCache
