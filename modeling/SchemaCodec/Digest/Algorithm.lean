import SchemaCodec.Digest.Blake2
import SchemaCodec.Digest.Md5
import SchemaCodec.Digest.Sha1
import SchemaCodec.Digest.Sha2
import SchemaCodec.Digest.Sha3
import SchemaCodec.Text.Quoted

namespace SchemaCodec.Digest

open SchemaCodec

/-! The digests that can be asked for by name. -/

inductive Algorithm where
  | blake2b512
  | blake2s256
  | md5
  | sha1
  | sha224
  | sha256
  | sha3Of224
  | sha3Of256
  | sha3Of384
  | sha3Of512
  | sha384
  | sha512
  | sha512Cut224
  | sha512Cut256
  deriving DecidableEq, Repr

namespace Algorithm

def name : Algorithm → String
  | .blake2b512 => "blake2b512"
  | .blake2s256 => "blake2s256"
  | .md5 => "md5"
  | .sha1 => "sha1"
  | .sha224 => "sha224"
  | .sha256 => "sha256"
  | .sha3Of224 => "sha3-224"
  | .sha3Of256 => "sha3-256"
  | .sha3Of384 => "sha3-384"
  | .sha3Of512 => "sha3-512"
  | .sha384 => "sha384"
  | .sha512 => "sha512"
  | .sha512Cut224 => "sha512-224"
  | .sha512Cut256 => "sha512-256"

def all : List Algorithm :=
  [.blake2b512, .blake2s256, .md5, .sha1, .sha224, .sha256, .sha3Of224, .sha3Of256, .sha3Of384,
   .sha3Of512, .sha384, .sha512, .sha512Cut224, .sha512Cut256]

def names : List String :=
  all.map name

def defaultName : String :=
  name .sha256

def ofName? (text : String) : Option Algorithm :=
  all.find? fun algorithm => algorithm.name == text

def sum : Algorithm → List UInt8 → List UInt8
  | .blake2b512 => Blake2.family64.sum
  | .blake2s256 => Blake2.family32.sum
  | .md5 => Md5.sum
  | .sha1 => Sha1.sum
  | .sha224 => Sha2.sum224
  | .sha256 => Sha2.sum256
  | .sha3Of224 => Sha3.sum 28
  | .sha3Of256 => Sha3.sum 32
  | .sha3Of384 => Sha3.sum 48
  | .sha3Of512 => Sha3.sum 64
  | .sha384 => Sha2.sum384
  | .sha512 => Sha2.sum512
  | .sha512Cut224 => Sha2.sum512Cut224
  | .sha512Cut256 => Sha2.sum512Cut256

end Algorithm

structure UnknownAlgorithm where
  name : String
  deriving DecidableEq, Repr

def UnknownAlgorithm.message (e : UnknownAlgorithm) : String :=
  "digest: unknown algorithm: " ++ Text.quoted e.name

def hexText (bytes : List UInt8) : String :=
  String.ofList (bytes.flatMap fun b => Text.hexDigits 2 b.toNat)

/-- The digest of a message by the algorithm of the given name, in hexadecimal digits. -/
def sumText (algorithm : String) (bytes : List UInt8) : Except UnknownAlgorithm String :=
  match Algorithm.ofName? algorithm with
  | some algorithm => .ok (hexText (algorithm.sum bytes))
  | none => .error ⟨algorithm⟩

end SchemaCodec.Digest
