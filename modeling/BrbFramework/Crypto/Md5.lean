import BrbFramework.Lib.LittleEndian
import BrbFramework.Lib.Machine

/-!
# The MD5 digest of `crypto/md5.c`

A context takes its data in pieces of any sizes and transforms a block of 64
bytes whenever its input is full. The transformation is a table of 64 steps,
each of which changes one of the four words and hands the next one over.
-/

namespace Md5

open Machine

/-- `buf` of `BRB_MD5_CTX`. -/
structure Words where
  a : UInt32
  b : UInt32
  c : UInt32
  d : UInt32
  deriving DecidableEq

/-- `BRB_MD5_CTX`, with `in` as bytes. -/
structure Ctx where
  buf : Words := ⟨0x67452301, 0xefcdab89, 0x98badcfe, 0x10325476⟩
  bytes : UInt32 := 0
  bytesHigh : UInt32 := 0
  input : List UInt8 := List.replicate 64 0

inductive Round
  | f1 | f2 | f3 | f4

/-- The macros `F1` to `F4`. -/
def Round.eval : Round → UInt32 → UInt32 → UInt32 → UInt32
  | .f1, x, y, z => z ^^^ (x &&& (y ^^^ z))
  | .f2, x, y, z => y ^^^ (z &&& (x ^^^ y))
  | .f3, x, y, z => x ^^^ y ^^^ z
  | .f4, x, y, z => y ^^^ (x ||| ~~~z)

/-- The arguments of one `MD5STEP`. -/
structure Step where
  round : Round
  word : Nat
  add : UInt32
  shift : UInt32

def steps : List Step :=
  [⟨.f1, 0, 0xd76aa478, 7⟩, ⟨.f1, 1, 0xe8c7b756, 12⟩,
   ⟨.f1, 2, 0x242070db, 17⟩, ⟨.f1, 3, 0xc1bdceee, 22⟩,
   ⟨.f1, 4, 0xf57c0faf, 7⟩, ⟨.f1, 5, 0x4787c62a, 12⟩,
   ⟨.f1, 6, 0xa8304613, 17⟩, ⟨.f1, 7, 0xfd469501, 22⟩,
   ⟨.f1, 8, 0x698098d8, 7⟩, ⟨.f1, 9, 0x8b44f7af, 12⟩,
   ⟨.f1, 10, 0xffff5bb1, 17⟩, ⟨.f1, 11, 0x895cd7be, 22⟩,
   ⟨.f1, 12, 0x6b901122, 7⟩, ⟨.f1, 13, 0xfd987193, 12⟩,
   ⟨.f1, 14, 0xa679438e, 17⟩, ⟨.f1, 15, 0x49b40821, 22⟩,
   ⟨.f2, 1, 0xf61e2562, 5⟩, ⟨.f2, 6, 0xc040b340, 9⟩,
   ⟨.f2, 11, 0x265e5a51, 14⟩, ⟨.f2, 0, 0xe9b6c7aa, 20⟩,
   ⟨.f2, 5, 0xd62f105d, 5⟩, ⟨.f2, 10, 0x02441453, 9⟩,
   ⟨.f2, 15, 0xd8a1e681, 14⟩, ⟨.f2, 4, 0xe7d3fbc8, 20⟩,
   ⟨.f2, 9, 0x21e1cde6, 5⟩, ⟨.f2, 14, 0xc33707d6, 9⟩,
   ⟨.f2, 3, 0xf4d50d87, 14⟩, ⟨.f2, 8, 0x455a14ed, 20⟩,
   ⟨.f2, 13, 0xa9e3e905, 5⟩, ⟨.f2, 2, 0xfcefa3f8, 9⟩,
   ⟨.f2, 7, 0x676f02d9, 14⟩, ⟨.f2, 12, 0x8d2a4c8a, 20⟩,
   ⟨.f3, 5, 0xfffa3942, 4⟩, ⟨.f3, 8, 0x8771f681, 11⟩,
   ⟨.f3, 11, 0x6d9d6122, 16⟩, ⟨.f3, 14, 0xfde5380c, 23⟩,
   ⟨.f3, 1, 0xa4beea44, 4⟩, ⟨.f3, 4, 0x4bdecfa9, 11⟩,
   ⟨.f3, 7, 0xf6bb4b60, 16⟩, ⟨.f3, 10, 0xbebfbc70, 23⟩,
   ⟨.f3, 13, 0x289b7ec6, 4⟩, ⟨.f3, 0, 0xeaa127fa, 11⟩,
   ⟨.f3, 3, 0xd4ef3085, 16⟩, ⟨.f3, 6, 0x04881d05, 23⟩,
   ⟨.f3, 9, 0xd9d4d039, 4⟩, ⟨.f3, 12, 0xe6db99e5, 11⟩,
   ⟨.f3, 15, 0x1fa27cf8, 16⟩, ⟨.f3, 2, 0xc4ac5665, 23⟩,
   ⟨.f4, 0, 0xf4292244, 6⟩, ⟨.f4, 7, 0x432aff97, 10⟩,
   ⟨.f4, 14, 0xab9423a7, 15⟩, ⟨.f4, 5, 0xfc93a039, 21⟩,
   ⟨.f4, 12, 0x655b59c3, 6⟩, ⟨.f4, 3, 0x8f0ccc92, 10⟩,
   ⟨.f4, 10, 0xffeff47d, 15⟩, ⟨.f4, 1, 0x85845dd1, 21⟩,
   ⟨.f4, 8, 0x6fa87e4f, 6⟩, ⟨.f4, 15, 0xfe2ce6e0, 10⟩,
   ⟨.f4, 6, 0xa3014314, 15⟩, ⟨.f4, 13, 0x4e0811a1, 21⟩,
   ⟨.f4, 4, 0xf7537e82, 6⟩, ⟨.f4, 11, 0xbd3af235, 10⟩,
   ⟨.f4, 2, 0x2ad7d2bb, 15⟩, ⟨.f4, 9, 0xeb86d391, 21⟩]

def blockWord (block : List UInt8) (i : Nat) : UInt32 :=
  UInt32.ofNat (LittleEndian.toNat ((block.drop (4 * i)).take 4))

/-- `MD5STEP`. The word that was changed comes second, so that the next step changes the one
before it. -/
def Step.eval (block : List UInt8) (s : Words) (step : Step) : Words :=
  let w := s.a + (step.round.eval s.b s.c s.d + (blockWord block step.word + step.add))
  ⟨s.d, (w <<< step.shift ||| w >>> (32 - step.shift)) + s.b, s.b, s.c⟩

/-- `BRB_MD5Transform`. -/
def transform (buf : Words) (block : List UInt8) : Words :=
  let s := steps.foldl (Step.eval block) buf
  ⟨buf.a + s.a, buf.b + s.b, buf.c + s.c, buf.d + s.d⟩

/-- "Process data in 64-byte chunks": the first `n` of them. -/
def blocks : Nat → Words → List UInt8 → Words
  | 0, buf, _ => buf
  | n + 1, buf, data => blocks n (transform buf (data.take 64)) (data.drop 64)

/-- `BRB_MD5Update`. -/
def update (ctx : Ctx) (data : List UInt8) : Ctx :=
  let t := ctx.bytes.toNat
  let bytes := UInt32.ofNat (t + data.length)
  let ctx := { ctx with
    bytes := bytes, bytesHigh := if bytes.toNat < t then ctx.bytesHigh + 1 else ctx.bytesHigh }
  let t := 64 - t % 64
  if t > data.length then
    { ctx with input := splice ctx.input (64 - t) data }
  else
    let input := splice ctx.input (64 - t) (data.take t)
    let rest := data.drop t
    let n := rest.length / 64
    { ctx with
      buf := blocks n (transform ctx.buf input) rest
      input := splice input 0 (rest.drop (64 * n)) }

/-- The loop of `BRB_MD5UpdateBig` over `n` chunks of 65535 bytes, then the rest. -/
def updateChunks : Nat → Ctx → List UInt8 → Ctx
  | 0, ctx, data => if data.length > 0 then update ctx data else ctx
  | n + 1, ctx, data => updateChunks n (update ctx (data.take 65535)) (data.drop 65535)

/-- `BRB_MD5UpdateBig`. -/
def updateBig (ctx : Ctx) (data : List UInt8) : Ctx :=
  updateChunks (data.length / 65535) ctx data

def Words.bytes (s : Words) : List UInt8 :=
  [s.a, s.b, s.c, s.d].flatMap fun w => LittleEndian.ofNat 4 w.toNat

theorem Words.length_bytes (s : Words) : s.bytes.length = 16 := by
  simp [Words.bytes]

/-- `BRB_MD5Final`: the digest. -/
def final (ctx : Ctx) : Vector UInt8 16 :=
  let count := ctx.bytes.toNat % 64
  let padded := ctx.input.take count ++ [0x80]
  let bits := LittleEndian.ofNat 4 (ctx.bytes <<< 3).toNat ++
    LittleEndian.ofNat 4 (ctx.bytesHigh <<< 3 ||| ctx.bytes >>> 29).toNat
  let buf :=
    if 55 < count then
      -- "Padding forces an extra block"
      transform (transform ctx.buf (padded ++ List.replicate (63 - count) 0))
        (List.replicate 56 0 ++ bits)
    else transform ctx.buf (padded ++ List.replicate (55 - count) 0 ++ bits)
  ⟨buf.bytes.toArray, buf.length_bytes⟩

end Md5
