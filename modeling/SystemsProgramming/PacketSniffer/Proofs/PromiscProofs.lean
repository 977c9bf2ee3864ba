import SystemsProgramming.PacketSniffer.Sniffer

/-!
# Proofs: switching promiscuous mode on and off

What a pass of `set_promisc` or `unset_promisc` over a list of names does to the flags of every
interface. Both passes apply one change, which makes no difference when it is applied again, so names
that come twice and interfaces with two names for them do no harm.
-/

namespace SystemsProgramming.PacketSniffer

open Foundations Prog

variable {ios : Nat → Ioctls} {ps : List (CStr × Nat)} {v : Vars}

/-- Both calls of `ioctl` succeed, if the interface exists. -/
def Ioctls.Ok (io : Ioctls) : Prop := io.get = true ∧ io.set = true

instance (io : Ioctls) : Decidable io.Ok := by
  unfold Ioctls.Ok
  infer_instance

/-- A pass over the names has come through to the interface. -/
def Touched (ios : Nat → Ioctls) (ps : List (CStr × Nat)) (name : List UInt8) : Prop :=
  ∃ p ∈ ps, (ios p.2).Ok ∧ ifrName p.1 = name

instance (ios : Nat → Ioctls) (ps : List (CStr × Nat)) (name : List UInt8) :
    Decidable (Touched ios ps name) := by
  unfold Touched
  infer_instance

/-- The flags after a pass that changes them by `f`. -/
def changed (f : BitVec 16 → BitVec 16) (ios : Nat → Ioctls) (ps : List (CStr × Nat))
    (flags : List UInt8 → Option (BitVec 16)) : List UInt8 → Option (BitVec 16) := fun name =>
  if Touched ios ps name then (flags name).map f else flags name

theorem touched_nil {name : List UInt8} : ¬ Touched ios [] name := by
  rintro ⟨p, hp, -⟩
  cases hp

theorem touched_cons {p : CStr × Nat} {name : List UInt8} :
    Touched ios (p :: ps) name ↔ ((ios p.2).Ok ∧ ifrName p.1 = name) ∨ Touched ios ps name := by
  simp [Touched]

theorem changed_nil (f : BitVec 16 → BitVec 16) (flags : List UInt8 → Option (BitVec 16)) :
    changed f ios [] flags = flags := by
  funext name
  rw [changed, if_neg touched_nil]

/-- A pass goes name by name. -/
theorem changed_cons {f : BitVec 16 → BitVec 16} (hf : ∀ w, f (f w) = f w) (p : CStr × Nat)
    (ps : List (CStr × Nat)) (flags : List UInt8 → Option (BitVec 16)) :
    changed f ios (p :: ps) flags = changed f ios ps (changed f ios [p] flags) := by
  funext name
  have hone : Touched ios [p] name ↔ (ios p.2).Ok ∧ ifrName p.1 = name := by simp [Touched]
  simp only [changed, touched_cons, hone]
  by_cases h1 : (ios p.2).Ok ∧ ifrName p.1 = name
  · by_cases h2 : Touched ios ps name
    · cases flags name <;> simp [h1, h2, hf]
    · simp [h1, h2]
  · simp [h1]

/-- One call: the flags change if both calls of `ioctl` go through, and the rest follows then. -/
theorem changeFlags_final (arg : CStr) (i : Nat) (f : BitVec 16 → BitVec 16)
    (done : Prog Vars Call Unit) (v : Vars) :
    (changeFlags arg (ios i) f done).final v =
      if (ios i).Ok ∧ (v.flags (ifrName arg)).isSome then
        done.final { v with flags := changed f ios [(arg, i)] v.flags }
      else { v with flags := changed f ios [(arg, i)] v.flags } := by
  have hupdate : ∀ flags, (ios i).Ok → v.flags (ifrName arg) = some flags →
      Function.update v.flags (ifrName arg) (some (f flags)) =
        changed f ios [(arg, i)] v.flags := by
    intro flags hok hflags
    funext name
    by_cases hname : name = ifrName arg
    · subst hname
      simp [changed, Touched, hok, hflags]
    · simp [changed, Touched, hname, Ne.symm hname]
  have hsame : ¬ ((ios i).Ok ∧ (v.flags (ifrName arg)).isSome) →
      changed f ios [(arg, i)] v.flags = v.flags := by
    intro h
    funext name
    by_cases htouched : Touched ios [(arg, i)] name
    · obtain ⟨hok, rfl⟩ : (ios i).Ok ∧ ifrName arg = name := by simpa [Touched] using htouched
      have hnone : v.flags (ifrName arg) = none := by simpa [hok] using h
      simp [changed, hnone]
    · rw [changed, if_neg htouched]
  by_cases hok : (ios i).Ok
  · cases hflags : v.flags (ifrName arg) with
    | none =>
      have hnot : ¬ ((ios i).Ok ∧ (v.flags (ifrName arg)).isSome) := by simp [hflags]
      rw [hsame hnot]
      simp [changeFlags, hok.1, hflags]
    | some flags =>
      rw [← hupdate flags hok hflags]
      simp [changeFlags, hok, hok.1, hok.2, hflags]
  · have hnot : ¬ ((ios i).Ok ∧ (v.flags (ifrName arg)).isSome) := fun h => hok h.1
    rw [hsame hnot, if_neg hnot]
    cases hg : (ios i).get <;> cases hs : (ios i).set <;> cases hflags : v.flags (ifrName arg) <;>
      simp_all [changeFlags, Ioctls.Ok]

/-! ## Switching off -/

/-- What `unset_promisc` does to a flag word. -/
def clear (w : BitVec 16) : BitVec 16 := w &&& ~~~ IFF_PROMISC

theorem clear_clear (w : BitVec 16) : clear (clear w) = clear w := by
  rw [clear, clear, BitVec.and_assoc, BitVec.and_self]

theorem unsetAll_final (ios : Nat → Ioctls) (ps : List (CStr × Nat)) (v : Vars) :
    (forEach (fun p => unsetPromisc p.1 (ios p.2)) ps).final v =
      { v with flags := changed clear ios ps v.flags } := by
  induction ps generalizing v with
  | nil => rw [changed_nil, final_forEach_nil]
  | cons p ps ih =>
    have hone : (unsetPromisc p.1 (ios p.2)).final v =
        { v with flags := changed clear ios [p] v.flags } := by
      rw [unsetPromisc, show (fun w => w &&& ~~~ IFF_PROMISC) = clear from rfl, changeFlags_final]
      split <;> rfl
    rw [final_forEach_cons, hone, ih, changed_cons clear_clear p ps v.flags]

/-- The flags once the program has switched promiscuous mode off. -/
def Vars.restored (v : Vars) (restore : Nat → Ioctls) : List UInt8 → Option (BitVec 16) :=
  changed clear restore v.promiscInterfaces.zipIdx v.flags

/-- Leaving restores the flags and closes the file. -/
theorem cleanup_final (restore : Nat → Ioctls) (v : Vars) :
    (cleanup restore).final v =
      { v with
        flags := v.restored restore
        running := false
        captures := if v.file then v.captures.flush else v.captures } := by
  have h := unsetAll_final restore v.promiscInterfaces.zipIdx v
  cases hf : v.file <;> simp [cleanup, h, hf, fclose, Vars.restored]

/-! ## Switching on -/

/-- What `set_promisc` does to a flag word. -/
def raise (w : BitVec 16) : BitVec 16 := w ||| IFF_PROMISC

theorem raise_raise (w : BitVec 16) : raise (raise w) = raise w := by
  rw [raise, raise, BitVec.or_assoc, BitVec.or_self]

/-- The names for which both calls of `ioctl` succeed. -/
def listed (ios : Nat → Ioctls) (flags : List UInt8 → Option (BitVec 16)) (ps : List (CStr × Nat)) :
    List CStr :=
  (ps.filter fun p => (ios p.2).Ok ∧ (flags (ifrName p.1)).isSome).map Prod.fst

theorem listed_cons (flags : List UInt8 → Option (BitVec 16)) (p : CStr × Nat) (ps : List (CStr × Nat)) :
    listed ios flags (p :: ps) =
      if (ios p.2).Ok ∧ (flags (ifrName p.1)).isSome then p.1 :: listed ios flags ps
      else listed ios flags ps := by
  simp only [listed, List.filter_cons, decide_eq_true_eq]
  split_ifs <;> rfl

theorem changed_isSome (f : BitVec 16 → BitVec 16) (flags : List UInt8 → Option (BitVec 16))
    (name : List UInt8) : (changed f ios ps flags name).isSome = (flags name).isSome := by
  unfold changed
  split_ifs
  · exact Option.isSome_map
  · rfl

/-- One call lists the name, if there is room for it. -/
theorem setPromisc_final (arg : CStr) (i : Nat) (v : Vars) :
    (setPromisc arg (ios i)).final v =
      if (ios i).Ok ∧ (v.flags (ifrName arg)).isSome then
        if v.promiscInterfaces.length < maxIf then
          { v with
            flags := changed raise ios [(arg, i)] v.flags
            promiscInterfaces := v.promiscInterfaces ++ [arg] }
        else { v with flags := changed raise ios [(arg, i)] v.flags, overrun := true }
      else { v with flags := changed raise ios [(arg, i)] v.flags } := by
  rw [setPromisc, show (fun w => w ||| IFF_PROMISC) = raise from rfl, changeFlags_final]
  split_ifs with hok hlen
  · simp only [final_modify, hlen, if_true]
  · simp only [final_modify, hlen, if_false]
  · rfl

/-- A pass over the names raises the flag on the interfaces it comes through to, and lists their names
as long as there is room for them. -/
theorem setAll_final (ios : Nat → Ioctls) (ps : List (CStr × Nat)) (v : Vars) :
    ∃ names overrun, (forEach (fun p => setPromisc p.1 (ios p.2)) ps).final v =
        { v with
          flags := changed raise ios ps v.flags
          promiscInterfaces := names
          overrun := overrun } ∧
      (overrun = false → v.overrun = false ∧ names = v.promiscInterfaces ++ listed ios v.flags ps) ∧
      (v.promiscInterfaces.length ≤ maxIf → (overrun = false ↔
        v.overrun = false ∧ v.promiscInterfaces.length + (listed ios v.flags ps).length ≤ maxIf)) := by
  induction ps generalizing v with
  | nil =>
    refine ⟨v.promiscInterfaces, v.overrun, ?_, fun h => ⟨h, by simp [listed]⟩,
      fun hmax => (and_iff_left hmax).symm⟩
    rw [changed_nil, final_forEach_nil]
  | cons p ps ih =>
    -- the first name, and then the others
    have hlisted : listed ios (changed raise ios [p] v.flags) ps = listed ios v.flags ps := by
      simp only [listed, changed_isSome]
    rw [final_forEach_cons, setPromisc_final, changed_cons raise_raise p ps v.flags, listed_cons]
    split_ifs with hok hlen
    · obtain ⟨names, overrun, hfin, hnames, hroom⟩ := ih { v with
        flags := changed raise ios [p] v.flags
        promiscInterfaces := v.promiscInterfaces ++ [p.1] }
      rw [hlisted, List.append_assoc, List.singleton_append] at hnames
      rw [hlisted, List.length_append, List.length_singleton] at hroom
      refine ⟨names, overrun, hfin, hnames, fun _ => ?_⟩
      rw [hroom hlen, List.length_cons]
      simp only [Nat.add_assoc, Nat.add_comm 1]
    · obtain ⟨names, overrun, hfin, hnames, hroom⟩ := ih { v with
        flags := changed raise ios [p] v.flags
        overrun := true }
      refine ⟨names, overrun, hfin, fun h => absurd (hnames h).1 (by simp), fun hmax => ?_⟩
      rw [hroom hmax, List.length_cons]
      simp only [Bool.true_eq_false, false_and, false_iff]
      omega
    · obtain ⟨names, overrun, hfin, hnames, hroom⟩ := ih { v with
        flags := changed raise ios [p] v.flags }
      rw [hlisted] at hnames hroom
      exact ⟨names, overrun, hfin, hnames, hroom⟩

end SystemsProgramming.PacketSniffer
