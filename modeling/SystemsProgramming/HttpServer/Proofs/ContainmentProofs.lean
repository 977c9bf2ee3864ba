import SystemsProgramming.Foundations.Paths
import SystemsProgramming.HttpServer.Proofs.ContentTypeProofs

/-!
# Proofs: where the files are

The handler opens the file with the decoded name, whatever it is. Nothing keeps a name from beginning
with a slash, or from leading up out of the working directory.
-/

namespace SystemsProgramming.HttpServer

open Foundations

variable {env : Env} {arrivals : List (List UInt8)} {url : List UInt8}

/-- The file system as the server sees it that runs in `cwd`. -/
def fileSystem (cwd : List (List UInt8)) (tree : List (List UInt8) → Option Descriptor)
    (path : List UInt8) : Option Descriptor := tree (locate cwd path)

/-- The response depends on what `open` returns for the decoded name, and on nothing else that `open`
may return. -/
theorem handler_congr_openFile (haccepted : Accepted env arrivals url)
    {openFile : List UInt8 → Option Descriptor}
    (h : openFile (env.file url) = env.openFile (env.file url)) :
    handler { env with openFile := openFile } arrivals = handler env arrivals := by
  have haccepted' : Accepted { env with openFile := openFile } arrivals url := haccepted
  rw [haccepted.handler_eq, haccepted'.handler_eq, serve, serve]
  simp only [buildHttp]
  rw [show ({ env with openFile := openFile } : Env).file url = env.file url from rfl, h]

/-- The name for `open` is the decoded URL, and nothing is checked or removed: what is before the first
escape out of the ordinary is the name that it spells. `%00` ends the name; a percent sign with fewer
than two characters behind it stays; any other escape is read as the byte that `sscanf` assigns, or as
what `hex` was, and the rest is decoded after it. -/
structure DecodesUrl (env : Env) (url : List UInt8) : Prop where
  spelled : ∀ name, Spells url name → 0 ∉ name → env.file url = name
  zero : ∀ stem name rest, url = stem ++ 37 :: 48 :: 48 :: rest → Spells stem name → 0 ∉ name →
    env.file url = name
  short : ∀ stem name rest, url = stem ++ 37 :: rest → rest.length < 2 → Spells stem name →
    0 ∉ name → env.file url = name ++ 37 :: rest
  malformed : ∀ stem name d e rest, url = stem ++ 37 :: d :: e :: rest → Spells stem name →
    0 ∉ name → env.file url = name ++ cString ((sscanf (d :: e :: rest)).getD (env.hex stem.length) ::
      getFilename env.hex (stem.length + 3) rest)

theorem decodesUrl (h0 : 0 ∉ url) : DecodesUrl env url where
  spelled _ hspells hname := file_of_spells hspells hname
  zero stem name rest hurl hspells hname := by
    rw [hurl]
    exact file_of_zero hspells hname
  short stem name rest hurl hlen hspells hname := by
    have hrest : 0 ∉ 37 :: rest := fun hmem => h0 (hurl ▸ List.mem_append_right stem hmem)
    rw [hurl, file_append hspells hname, getFilename_short hlen, cString_of_not_mem hrest]
  malformed stem name d e rest hurl hspells hname := by
    rw [hurl, file_append hspells hname, getFilename, if_pos rfl]

end SystemsProgramming.HttpServer
