import ParticleFx.Frame

namespace ParticleFx.Picture

-- A number as four bytes, the highest first.
def bigEndian (n : Nat) : List UInt8 :=
  [(n >>> 24).toUInt8, (n >>> 16).toUInt8, (n >>> 8).toUInt8, n.toUInt8]

def crcBit (c : UInt32) : UInt32 :=
  if c &&& 1 = 1 then (c >>> 1) ^^^ 0xedb88320 else c >>> 1

def crcByte (c : UInt32) (b : UInt8) : UInt32 :=
  crcBit (crcBit (crcBit (crcBit (crcBit (crcBit (crcBit (crcBit (c ^^^ b.toUInt32))))))))

-- The checksum of a chunk.
def crc (bytes : List UInt8) : UInt32 :=
  bytes.foldl crcByte 0xffffffff ^^^ 0xffffffff

-- The checksum of a compressed stream: two running sums.
def adler (bytes : List UInt8) : Nat :=
  let (a, b) := bytes.foldl
    (fun (a, b) byte =>
      let a := (a + byte.toNat) % 65521
      (a, (b + a) % 65521))
    (1, 0)
  (b <<< 16) + a

-- Length, name, content, and a checksum of the latter two.
def chunk (name : List UInt8) (content : List UInt8) : List UInt8 :=
  bigEndian content.length ++ name ++ content ++ bigEndian (crc (name ++ content)).toNat

-- A row of pixels, kept as it is.
def row (f : Frame) (y : Nat) : List UInt8 :=
  0 :: (f.data.extract (4 * f.width * y) (4 * f.width * (y + 1))).toList

def rows (f : Frame) : List UInt8 :=
  (List.range f.height).flatMap (row f)

-- A block that holds its bytes as they are.
def stored (last : Bool) (bytes : List UInt8) : List UInt8 :=
  let n := bytes.length
  [if last then 1 else 0, n.toUInt8, (n / 256).toUInt8, (65535 - n).toUInt8,
    ((65535 - n) / 256).toUInt8] ++ bytes

-- Blocks of the largest size that can be counted; `left` is how many more there are.
def blocks : Nat → List UInt8 → List UInt8
  | 0, bytes => stored true bytes
  | left + 1, bytes => stored false (bytes.take 65535) ++ blocks left (bytes.drop 65535)

def stream (bytes : List UInt8) : List UInt8 :=
  [0x78, 0x01] ++ blocks ((bytes.length - 1) / 65535) bytes ++ bigEndian (adler bytes)

-- The frame as a picture file, uncompressed: eight bits a channel, color with alpha.
def png (f : Frame) : List UInt8 :=
  [0x89, 0x50, 0x4e, 0x47, 0x0d, 0x0a, 0x1a, 0x0a]
    ++ chunk [0x49, 0x48, 0x44, 0x52] (bigEndian f.width ++ bigEndian f.height ++ [8, 6, 0, 0, 0])
    ++ chunk [0x49, 0x44, 0x41, 0x54] (stream (rows f))
    ++ chunk [0x49, 0x45, 0x4e, 0x44] []

end ParticleFx.Picture
