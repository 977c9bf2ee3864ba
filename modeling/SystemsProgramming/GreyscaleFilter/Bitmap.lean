import SystemsProgramming.GreyscaleFilter.Filter

/-!
# Bitmap files

What a reader makes of the bytes of an uncompressed bitmap with 24 bits to a pixel: the headers say the
size of the image and where the rows start, and a row is filled up to a multiple of four bytes.
-/

namespace SystemsProgramming.GreyscaleFilter

open Foundations

/-- An image, row by row in the order of the file. -/
structure Image where
  width : Nat
  height : Nat
  rows : List (List RgbTriple)
  deriving DecidableEq

/-- The image with all three channels of every pixel set to the mean of them, rounded down. -/
def Image.grey (img : Image) : Image where
  width := img.width
  height := img.height
  rows := img.rows.map fun row => row.map fun p =>
    let mean := UInt8.ofNat ((p.rgbtRed.toNat + p.rgbtGreen.toNat + p.rgbtBlue.toNat) / 3)
    ⟨mean, mean, mean⟩

/-- Where the rows start. -/
def offBits (file : List UInt8) : Nat := field file 10 4

/-- The size of the image that the headers state. -/
def imageWidth (file : List UInt8) : Nat := field file 18 4

def imageHeight (file : List UInt8) : Nat := field file 22 4

/-- The bytes from one row to the next: the multiple of four from `3 * width` on. -/
def stride (width : Nat) : Nat := (3 * width + 3) / 4 * 4

/-- The file is a bitmap of the kind in question, and the pixels of every row are in it. -/
structure IsBitmap (file : List UInt8) : Prop where
  headers : 54 ≤ file.length
  type : field file 0 2 = 0x4d42
  bitCount : field file 28 2 = 24
  compression : field file 30 4 = 0
  width_pos : 0 < imageWidth file
  width_lt : imageWidth file < 2 ^ 31
  height_pos : 0 < imageHeight file
  height_lt : imageHeight file < 2 ^ 31
  offBits_le : 54 ≤ offBits file
  complete : offBits file + (imageHeight file - 1) * stride (imageWidth file) +
    3 * imageWidth file ≤ file.length

/-- The headers are in the file, and are those of a bitmap with 24 bits to a pixel and a positive width. -/
structure Readable (file : List UInt8) : Prop where
  headers : 54 ≤ file.length
  type : field file 0 2 = 0x4d42
  bitCount : field file 28 2 = 24
  width_pos : 0 < imageWidth file
  width_lt : imageWidth file < 2 ^ 31

/-- And there is at least one row, and the pixels of every row are in the file. -/
structure HasRows (file : List UInt8) : Prop extends Readable file where
  height_pos : 0 < imageHeight file
  height_lt : imageHeight file < 2 ^ 31
  complete : offBits file + (imageHeight file - 1) * stride (imageWidth file) +
    3 * imageWidth file ≤ file.length

theorem IsBitmap.hasRows {file : List UInt8} (h : IsBitmap file) : HasRows file :=
  { h with }

/-- The row `i` of the file. -/
def fileRow (file : List UInt8) (i : Nat) : List UInt8 :=
  (file.drop (offBits file + i * stride (imageWidth file))).take (3 * imageWidth file)

/-- The image in a bitmap. -/
def image (file : List UInt8) : Image where
  width := imageWidth file
  height := imageHeight file
  rows := (List.range (imageHeight file)).map fun i => triples (fileRow file i)

end SystemsProgramming.GreyscaleFilter
