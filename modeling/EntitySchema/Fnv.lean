/-!
  The hash that names things on the wire.

  `hash` is the 32-bit FNV-1a hash of a run of bytes: starting from a fixed word, each byte is xored into
  the word, which is then multiplied by a prime, all modulo 2^32.  `wireId` folds the hash of a name into
  the 16 bits by which archetypes and events are known on the wire; programs that were built against a
  protocol rely on it.
-/

namespace EntitySchema.Fnv

/-- The hash of no bytes. -/
def basis : UInt32 := 0x811c9dc5

/-- The multiplier. -/
def prime : UInt32 := 0x01000193

/-- The hash after one more byte. -/
def absorb (h : UInt32) (byte : UInt8) : UInt32 := (h ^^^ byte.toUInt32) * prime

/-- The hash of a run of bytes. -/
def hash (bytes : List UInt8) : UInt32 := bytes.foldl absorb basis

theorem hash_concat (bytes : List UInt8) (byte : UInt8) :
    hash (bytes ++ [byte]) = absorb (hash bytes) byte := by
  simp [hash, List.foldl_append]

/-- The bytes of a text in its usual encoding. -/
def bytesOf (text : String) : List UInt8 := text.toList.flatMap String.utf8EncodeChar

/-- The hash of a text. -/
def hashText (text : String) : UInt32 := hash (bytesOf text)

/-- The 16-bit identifier of a name: the two halves of its hash, xored. -/
def wireId (name : String) : UInt16 :=
  let h := hashText name
  ((h >>> 16) ^^^ (h &&& 0xffff)).toUInt16

example : hash [] = 0x811c9dc5 := by decide
example : hash [0x61] = 0xe40c292c := by decide

end EntitySchema.Fnv
