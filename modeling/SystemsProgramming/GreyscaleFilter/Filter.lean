import SystemsProgramming.Foundations.Memory

/-!
# The greyscale filter (`greyscale-filter/main.c`)

`main` from the open input file on. The headers and the pixel block are memory with unknown contents
until something is read into them. Writing the output succeeds once the file is open.
-/

namespace SystemsProgramming.GreyscaleFilter

open Foundations

/-- What `main` finds outside: what the variables for the headers contain at first, what `malloc`
returns for a size, and whether `greyscale.bmp` can be opened. -/
structure Env where
  header : Memory
  infoHeader : Memory
  malloc : Nat → Option Memory
  created : Bool

/-- The two environments give the same answers and differ only in what memory contains at first. -/
structure SameSystem (env env' : Env) : Prop where
  malloc : ∀ size, (env.malloc size).isSome = (env'.malloc size).isSome
  created : env.created = env'.created

/-- How `main` ends. -/
inductive Outcome where
  | rejected
  | undefined
  | noMemory
  | notCreated
  | saved (output : List UInt8)
  deriving DecidableEq

/-! ## The headers -/

/-- `sizeof(BMP_HEADER)` -/
def headerSize : Nat := 14

/-- `sizeof(BMP_INFO_HEADER)` -/
def infoHeaderSize : Nat := 40

/-- The number in the `n` bytes of a packed structure from `i` on. -/
def field (bytes : List UInt8) (i n : Nat) : Nat := ofLe ((bytes.drop i).take n)

/-- `header.bfType` -/
def bfType (header : List UInt8) : UInt16 := UInt16.ofNat (field header 0 2)

/-- `header.bfOffBits` -/
def bfOffBits (header : List UInt8) : UInt32 := UInt32.ofNat (field header 10 4)

/-- `info_header.biWidth` -/
def biWidth (info : List UInt8) : Int32 := (UInt32.ofNat (field info 4 4)).toInt32

/-- `info_header.biHeight` -/
def biHeight (info : List UInt8) : Int32 := (UInt32.ofNat (field info 8 4)).toInt32

/-- `info_header.biBitCount` -/
def biBitCount (info : List UInt8) : UInt16 := UInt16.ofNat (field info 14 2)

/-! ## The pixels -/

/-- `RGBTRIPLE` -/
structure RgbTriple where
  rgbtBlue : UInt8
  rgbtGreen : UInt8
  rgbtRed : UInt8
  deriving DecidableEq

/-- The memory of a triple. -/
def RgbTriple.bytes (p : RgbTriple) : List UInt8 := [p.rgbtBlue, p.rgbtGreen, p.rgbtRed]

/-- The triples in some memory. -/
def triples : List UInt8 → List RgbTriple
  | b :: g :: r :: rest => ⟨b, g, r⟩ :: triples rest
  | _ => []

/-- `avg` -/
def RgbTriple.avg (p : RgbTriple) : UInt8 :=
  UInt8.ofNat ((p.rgbtRed.toNat + p.rgbtGreen.toNat + p.rgbtBlue.toNat) / 3)

/-- A pixel after the filter. -/
def RgbTriple.filter (p : RgbTriple) : RgbTriple := ⟨p.avg, p.avg, p.avg⟩

/-- `padding`: the product is one of unsigned numbers. -/
def padding (width : Int32) : Nat := (4 - (width.toInt * 3 % 2 ^ 64).toNat % 4) % 4

/-- `fread(data, 1, n, in)` at the position `pos` of the file, into memory that contains `m`. -/
def fread (file : List UInt8) (pos n : Nat) (m : Memory) : List UInt8 :=
  bytesAt (overlay ((file.drop pos).take n) m) 0 n

/-- The loop that reads the rows: `rowBytes` bytes each into the block, from the row `i` on with so
many rounds to go, at the position `pos` of the file. -/
def readRows (file : List UInt8) (block : Memory) (rowBytes padding : Nat) :
    Nat → Nat → Nat → List (List UInt8)
  | 0, _, _ => []
  | rounds + 1, i, pos =>
    fread file pos rowBytes (fun k => block (i * rowBytes + k)) ::
      readRows file block rowBytes padding rounds (i + 1)
        (pos + ((file.drop pos).take rowBytes).length + padding)

/-- The loop that filters a row, and the bytes of it that are written. -/
def writeRow (padding : Nat) (row : List UInt8) : List UInt8 :=
  (triples row).flatMap (fun p => p.filter.bytes) ++ List.replicate padding 0

/-! ## `main` -/

/-- `main`, on the contents of the input file. -/
def main (env : Env) (file : List UInt8) : Outcome :=
  let header := fread file 0 headerSize env.header
  let info := fread file headerSize infoHeaderSize env.infoHeader
  if bfType header ≠ 0x4d42 ∨ biBitCount info ≠ 24 then .rejected
  else
    let width := biWidth info
    let height := biHeight info
    -- the type `RGBTRIPLE[width]` must have a positive size
    if width.toInt ≤ 0 then .undefined
    else
      let rowBytes := 3 * width.toInt.toNat
      match env.malloc (height.toInt * rowBytes % 2 ^ 64).toNat with
      | none => .noMemory
      | some block =>
        let rows := readRows file block rowBytes (padding width) height.toInt.toNat 0
          (bfOffBits header).toNat
        if env.created then .saved (header ++ info ++ rows.flatMap (writeRow (padding width)))
        else .notCreated

end SystemsProgramming.GreyscaleFilter
