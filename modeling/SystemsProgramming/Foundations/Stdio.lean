/-!
# Buffered files

A file with the output stream that writes it. What is written to the stream waits there until the
stream hands it to the file: all of it when the stream is flushed or closed, and at any other time as
much as the stream sees fit.
-/

namespace Foundations

/-- A file, and the bytes written to its stream that have not reached it. -/
structure BufferedFile where
  disk : List UInt8
  pending : List UInt8

namespace BufferedFile

/-- The stream of a file opened for writing, which is empty then. -/
def opened : BufferedFile := ⟨[], []⟩

/-- Write to the stream, which hands the first `out` of the bytes that are waiting to the file. -/
def write (f : BufferedFile) (data : List UInt8) (out : Nat) : BufferedFile :=
  ⟨f.disk ++ (f.pending ++ data).take out, (f.pending ++ data).drop out⟩

/-- Hand everything to the file. -/
def flush (f : BufferedFile) : BufferedFile := ⟨f.disk ++ f.pending, []⟩

/-- What the file contains once the stream is closed. -/
def content (f : BufferedFile) : List UInt8 := f.disk ++ f.pending

@[simp] theorem content_opened : opened.content = [] := rfl

@[simp] theorem content_write (f : BufferedFile) (data : List UInt8) (out : Nat) :
    (f.write data out).content = f.content ++ data := by
  rw [content, write, content, List.append_assoc, List.take_append_drop, List.append_assoc]

@[simp] theorem content_flush (f : BufferedFile) : f.flush.content = f.content :=
  List.append_nil _

@[simp] theorem disk_flush (f : BufferedFile) : f.flush.disk = f.content := rfl

/-- The first write after opening. -/
theorem disk_opened_write (data : List UInt8) (out : Nat) :
    (opened.write data out).disk = data.take out := rfl

end BufferedFile

end Foundations
