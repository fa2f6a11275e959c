namespace BoundedCache.Reservation

/-- One block of memory spans at most half of what a machine word can address, less one byte. -/
def largestBlock : Nat := UInt64.size / 2 - 1

/-- How many values a machine word has. Counts are taken modulo this number. -/
def wordRange : Nat := UInt64.size

def fits (count size : Nat) : Bool := count * size ≤ largestBlock

/-- A deque reserves a link of 32 bytes for each expected node and one for the sentinel. At the
largest count that a word can hold the sentinel's link makes the count wrap, and nothing is
reserved. -/
def dequeFits (expected : Nat) : Bool := fits ((expected + 1) % wordRange) 32

/-- A buffer reserves 24 bytes for each event. A buffer that holds no event is none. -/
def bufferFits (room : Nat) : Bool := room ≠ 0 && fits room 24

/-- The buckets of a table are a power of two. At least one in eight stays free, and each takes 33
bytes, so `1 <<< 57` of them fit into a block and twice as many do not. -/
def tableFits (entries : Nat) : Bool := 8 * entries / 7 ≤ 1 <<< 57

/-- The tables of a store are a power of two in number, and each takes 72 bytes, so `1 <<< 56` of
them fit into a block and twice as many do not. A number that no power of two in a word reaches
counts as the least one. -/
def tablesFit (count : Nat) : Bool := count ≤ 1 <<< 56 || 1 <<< 63 < count

def share (expected tables : Nat) : Nat := (expected + tables - 1) / tables

end BoundedCache.Reservation
