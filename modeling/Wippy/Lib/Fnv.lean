/-! The FNV-1a hashes of the Go standard library (`hash/fnv`). -/

namespace Lib

def fnv32aStep (h : UInt32) (b : UInt8) : UInt32 := (h ^^^ b.toUInt32) * 16777619

def fnv64aStep (h : UInt64) (b : UInt8) : UInt64 := (h ^^^ b.toUInt64) * 1099511628211

def fnv32a (data : List UInt8) : UInt32 := data.foldl fnv32aStep 2166136261
def fnv64a (data : List UInt8) : UInt64 := data.foldl fnv64aStep 14695981039346656037

-- The published digests of "a".
example : fnv32a [97] = 0xe40c292c := by decide
example : fnv64a [97] = 0xaf63dc4c8601ec8c := by decide

end Lib
