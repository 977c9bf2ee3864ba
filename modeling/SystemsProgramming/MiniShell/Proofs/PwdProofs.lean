import SystemsProgramming.MiniShell.Buffers
import SystemsProgramming.MiniShell.Proofs.OutputProofs

/-!
# Proofs: what `pwd` prints

A call of `getcwd` that succeeds leaves `errno` as it is. So once a call has failed with `ERANGE` the
loop never sees another value, however large the buffer becomes. Only the loop looks for other errors:
where the first call fails with one of them, what `malloc` has left in the buffer is printed.
-/

namespace SystemsProgramming.MiniShell

open Foundations Prog

variable {path : CStr}

/-- What a call comes to when `errno` is `ERANGE`: a path or not, the loop goes round again, unless the
size has become 0. -/
theorem getcwd_erange (path : CStr) (size : UInt64) :
    getcwd path size .erange = ⟨none, .other⟩ ∨ (getcwd path size .erange).errno = .erange := by
  unfold getcwd
  split_ifs
  · exact Or.inl rfl
  · exact Or.inr rfl
  · exact Or.inr rfl

/-- The loop is not left with a path once `errno` is `ERANGE`. -/
theorem pwdLoop_ne_prints (path : CStr) (calls : Nat) (buffer p : List UInt8) (size : Int32) :
    (pwdLoop buffer (getcwdCalls path calls size .erange)).1 ≠ .prints p := by
  induction calls generalizing buffer size with
  | zero => exact Pwd.noConfusion
  | succ calls ih =>
    rw [getcwdCalls]
    rcases getcwd_erange path size.toInt64.toUInt64 with hfails | herrno
    · rw [hfails]
      exact Pwd.noConfusion
    · simp only [pwdLoop, herrno, ne_eq, not_true_eq_false, and_false, if_false, if_true]
      exact ih _ _

/-- The first buffer has room for paths of up to 1023 bytes. -/
theorem getcwd_bufferSize (path : CStr) (errno : Errno) :
    getcwd path bufferSize.toInt64.toUInt64 errno =
      if path.bytes.length < 1024 then ⟨some path.bytes, errno⟩ else ⟨none, .erange⟩ := by
  have hsize : bufferSize.toInt64.toUInt64 = 1024 := by decide
  rw [hsize, getcwd, if_neg (by decide)]
  rfl

theorem pwd_of_short (h : path.bytes.length < 1024) (r : Round) (errno : Errno) :
    pwd (r.inDirectory path errno 1) = .prints path.bytes := by
  simp [pwd, Round.inDirectory, getcwdCalls, getcwd_bufferSize, if_pos h, pwdCalls]

theorem pwd_of_long (h : ¬ path.bytes.length < 1024) (r : Round) (errno : Errno) (calls : Nat)
    (p : List UInt8) : pwd (r.inDirectory path errno calls) ≠ .prints p := by
  cases calls with
  | zero => exact Pwd.noConfusion
  | succ calls =>
    simp only [pwd, Round.inDirectory, getcwdCalls, getcwd_bufferSize, if_neg h, pwdCalls, and_self,
      if_true]
    exact pwdLoop_ne_prints path calls _ p _

/-- What `builtin_pwd` prints, and what it returns. -/
theorem builtinPwd_eq (r : Round) (args : List (List UInt8)) (v : Vars) :
    (((builtinPwd r args).calls v).flatMap printed, (builtinPwd r args).value v) =
      match pwd r with
      | .prints buffer => (cString buffer ++ ascii "\n", .status 1)
      | .exits => ([], .exit)
      | .loops => ([], .none) := by
  unfold builtinPwd
  cases pwd r with
  | prints buffer => simp [printf, printed]
  | exits => simp [printed]
  | loops => simp

/-- In this directory `builtin_pwd` comes back after so many calls of `getcwd`, and what it has printed is
the path. -/
def PrintsPath (r : Round) (path : CStr) (errno : Errno) (calls : Nat) : Prop :=
  ∀ args v, ((builtinPwd (r.inDirectory path errno calls) args).calls v).flatMap printed =
      path.bytes ++ ascii "\n" ∧
    (builtinPwd (r.inDirectory path errno calls) args).value v = .status 1

theorem length_lt_of_printsPath {r : Round} {errno : Errno} {calls : Nat}
    (h : PrintsPath r path errno calls) : path.bytes.length < 1024 := by
  by_contra hlong
  have heq := builtinPwd_eq (r.inDirectory path errno calls) [] (initial (script []))
  rw [(h [] (initial (script []))).1, (h [] (initial (script []))).2] at heq
  cases hpwd : pwd (r.inDirectory path errno calls) with
  | prints p => exact pwd_of_long hlong r errno calls p hpwd
  | exits => simp [hpwd] at heq
  | loops => simp [hpwd] at heq

/-- `builtin_pwd` calls `getcwd` finitely many times and prints the path if and only if the path fits
into the first buffer. -/
theorem pwd_prints_iff (r : Round) (path : CStr) (errno : Errno) :
    (∃ calls, PrintsPath r path errno calls) ↔ path.bytes.length < 1024 := by
  constructor
  · rintro ⟨calls, h⟩
    exact length_lt_of_printsPath h
  · intro h
    refine ⟨1, fun args v => ?_⟩
    have hpath : cString path.bytes = path.bytes := cString_of_not_mem path.2
    have heq := builtinPwd_eq (r.inDirectory path errno 1) args v
    simp only [pwd_of_short h, hpath] at heq
    exact Prod.mk.inj heq

/-- A directory inside another, with a name of `n` letters. -/
def subdirectory (n : Nat) : List UInt8 := 47 :: List.replicate n 97

/-- A path of 1024 bytes: four directories inside one another, each with a name of 255 letters. -/
theorem long_path_not_printed : ¬ ∀ (r : Round) (path : CStr) (errno : Errno),
    ∃ calls, PrintsPath r path errno calls := by
  intro h
  have hsub : 0 ∉ subdirectory 255 ∧ (subdirectory 255).length = 256 := by
    rw [subdirectory, List.mem_cons, List.mem_replicate, List.length_cons, List.length_replicate]
    simp
  have hpath : 0 ∉ (List.replicate 4 (subdirectory 255)).flatten := by
    intro hmem
    obtain ⟨l, hl, h0⟩ := List.mem_flatten.1 hmem
    exact hsub.1 (List.eq_of_mem_replicate hl ▸ h0)
  obtain ⟨calls, hprints⟩ := h smooth ⟨_, hpath⟩ .other
  have hlen : (List.replicate 4 (subdirectory 255)).flatten.length < 1024 :=
    length_lt_of_printsPath hprints
  rw [List.length_flatten, List.map_replicate, hsub.2] at hlen
  exact absurd hlen (by decide)

/-! ## What is printed was written by `getcwd` -/

/-- Whatever the loop prints, the call before has returned it. -/
theorem mem_of_pwdLoop {buffer p : List UInt8} {calls : List GetcwdCall}
    (h : (pwdLoop buffer calls).1 = .prints p) :
    ∃ c ∈ (pwdLoop buffer calls).2, c.path = some p := by
  induction calls generalizing buffer with
  | nil => cases h
  | cons c calls ih =>
    rw [pwdLoop] at h ⊢
    by_cases hfail : c.path = none ∧ c.errno ≠ .erange
    · rw [if_pos hfail] at h
      cases h
    · rw [if_neg hfail] at h ⊢
      by_cases hrange : c.errno = .erange
      · rw [if_pos hrange] at h ⊢
        obtain ⟨c', hc', hpath⟩ := ih h
        exact ⟨c', List.mem_cons_of_mem c hc', hpath⟩
      · rw [if_neg hrange] at h ⊢
        cases hpath : c.path with
        | none => exact absurd ⟨hpath, hrange⟩ hfail
        | some q =>
          rw [hpath] at h
          obtain rfl : q = p := Pwd.prints.inj h
          exact ⟨c, List.mem_singleton_self c, hpath⟩

/-- What `builtin_pwd` prints was written to the buffer by a call that it has made and that has
succeeded. Where no call has succeeded it prints nothing. -/
def PrintsOnlyPaths (garbage : List UInt8) (calls : List GetcwdCall) : Prop :=
  ∀ p, (pwdCalls garbage calls).1 = .prints p → ∃ c ∈ (pwdCalls garbage calls).2, c.path = some p

theorem not_printsOnlyPaths_of_first {c : GetcwdCall} (hpath : c.path = none) (herrno : c.errno = .other)
    (garbage : List UInt8) (calls : List GetcwdCall) : ¬ PrintsOnlyPaths garbage (c :: calls) := by
  intro h
  have heq : pwdCalls garbage (c :: calls) = (.prints garbage, [c]) := by
    rw [pwdCalls, if_neg (by simp [herrno]), hpath]
    rfl
  obtain ⟨c', hc', hsome⟩ := h garbage (by rw [heq])
  rw [heq, List.mem_singleton] at hc'
  rw [hc', hpath] at hsome
  cases hsome

/-- `builtin_pwd` prints only what `getcwd` has returned if and only if the first call does not fail with
an `errno` other than `ERANGE`. -/
theorem printsOnlyPaths_iff (garbage : List UInt8) (calls : List GetcwdCall) :
    PrintsOnlyPaths garbage calls ↔ ∀ c ∈ calls.head?, c.path = none → c.errno = .erange := by
  cases calls with
  | nil => exact iff_of_true (fun p hp => Pwd.noConfusion hp) (fun c hc => by cases hc)
  | cons c calls =>
    have hhead : (∀ c' ∈ (c :: calls).head?, c'.path = none → c'.errno = .erange) ↔
        (c.path = none → c.errno = .erange) := by simp
    rw [hhead]
    cases hpath : c.path with
    | none =>
      cases herrno : c.errno with
      | other =>
        exact iff_of_false (not_printsOnlyPaths_of_first hpath herrno garbage calls)
          fun h => Errno.noConfusion (h rfl)
      | erange =>
        refine iff_of_true (fun p hp => ?_) fun _ => rfl
        rw [pwdCalls, if_pos ⟨hpath, herrno⟩] at hp ⊢
        obtain ⟨c', hc', hsome⟩ := mem_of_pwdLoop hp
        exact ⟨c', List.mem_cons_of_mem c hc', hsome⟩
    | some q =>
      refine iff_of_true (fun p hp => ?_) (fun h => by cases h)
      rw [pwdCalls, if_neg (by simp [hpath])] at hp ⊢
      rw [hpath] at hp
      obtain rfl : q = p := Pwd.prints.inj hp
      exact ⟨c, List.mem_singleton_self c, hpath⟩

/-- In a directory that does not exist any more, `malloc` having left an `x`. -/
theorem garbage_printed : ¬ ∀ (garbage : List UInt8) (calls : List GetcwdCall),
    PrintsOnlyPaths garbage calls := fun h =>
  not_printsOnlyPaths_of_first rfl rfl (ascii "x") [] (h (ascii "x") [⟨none, .other⟩])

end SystemsProgramming.MiniShell
