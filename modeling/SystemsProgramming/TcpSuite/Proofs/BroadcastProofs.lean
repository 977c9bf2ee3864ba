import SystemsProgramming.Foundations.Runs
import SystemsProgramming.TcpSuite.Proofs.SlotsProofs

/-!
# Proofs: what is read from standard input reaches every client

One iteration keeps the slots sound, or ends the loop with every descriptor closed. Between the two
ends of an iteration the chunk read from standard input is written to every client in the table, one
that the same iteration accepted included, once to each.
-/

namespace SystemsProgramming.TcpSuite.Server

open Foundations Prog

variable {socketFd : Int} {a : Answers} {u v : Vars} {w : Ledger Int Unit}

/-- The slots at a loop head, or after the loop. -/
def Inv (socketFd : Int) (v : Vars) (w : Ledger Int Unit) : Prop := Sound socketFd v w ∨ Closed v w

/-- What the outside promises about an iteration that starts after the calls `h` from the variables
`v`: `accept` returns no descriptor that is open. -/
def Fresh (socketFd : Int) (h : List Call) (v : Vars) (a : Answers) : Prop :=
  ∀ w, replay next (opened socketFd) h = some w →
    ∀ fd, .accept fd ∈ (iteration socketFd a).calls v → w fd = none

/-! ## One iteration -/

/-- With a `poll` that did not fail the loop goes on. -/
theorem serve_keeps_sound (hpoll : a.poll ≠ -1) :
    Triple next (Sound socketFd) (serve socketFd a) fun _ => Sound socketFd :=
  Triple.bind (broadcast_keeps a) fun _ => Triple.bind (readClients_keeps a) fun _ =>
    Triple.ite (fun h => absurd h hpoll) fun _ => Triple.pure fun _ _ h => h

/-- With one that failed the loop ends in `cleanup`. -/
theorem serve_keeps_closed (hpoll : a.poll = -1) :
    Triple next (Sound socketFd) (serve socketFd a) fun _ => Closed :=
  Triple.bind (broadcast_keeps a) fun _ => Triple.bind (readClients_keeps a) fun _ =>
    Triple.ite
      (fun _ => Triple.bind (Q := fun _ => Sound socketFd) (Triple.call fun _ w h => ⟨w, rfl, h⟩)
        fun _ => cleanup_closes socketFd)
      fun h => absurd hpoll h

theorem serve_keeps (a : Answers) :
    Triple next (Sound socketFd) (serve socketFd a) fun _ => Inv socketFd := by
  by_cases hpoll : a.poll = -1
  · exact (serve_keeps_closed hpoll).post fun _ _ _ h => Or.inr h
  · exact (serve_keeps_sound hpoll).post fun _ _ _ h => Or.inl h

theorem iteration_running (h : v.running = true) :
    (iteration socketFd a).final v = (acceptClient socketFd a).final (v.polled a) ∧
    (iteration socketFd a).calls v = (acceptClient socketFd a).calls (v.polled a) := by
  simp [iteration, h]

theorem iteration_stopped (h : v.running = false) :
    (iteration socketFd a).final v = v ∧ (iteration socketFd a).calls v = [] := by
  simp [iteration, h]

theorem Sound.polled (h : Sound socketFd v w) (a : Answers) : Sound socketFd (v.polled a) w :=
  h.congr rfl rfl fun i => by simp [Vars.polled]

/-- When an iteration gets past its first job, the calls so far obey the protocol and the slots are
sound, with the new client among them. -/
theorem Sound.after_accept (h : Sound socketFd v w) {cs : List Call}
    (hw : replay next (opened socketFd) cs = some w) (hfresh : Fresh socketFd cs v a)
    (ha : accepted a (v.polled a) = some u) :
    ∃ w', replay next w (acceptCalls a (v.polled a)) = some w' ∧ Sound socketFd u w' := by
  have hnone := hfresh w hw
  rw [(iteration_running h.running).2, (acceptClient_of_accepted ha).2] at hnone
  have hpoll := h.polled a
  generalize v.polled a = p at ha hnone hpoll
  unfold accepted at ha
  split_ifs at ha with h1 h2
  · have hcalls : acceptCalls a p =
        [.accept a.accept, .printf ("\n[client connected: " ++ a.clientIp ++ "]\n")] := by
      simp [acceptCalls, h1, h2]
    have hfree : w a.accept = none := hnone a.accept (by simp [hcalls])
    rw [hcalls, ← Option.some.inj ha]
    refine ⟨Function.update w a.accept (some ()), ?_, hpoll.stored h2 hfree⟩
    simp [next, Ledger.acquire_of_none hfree]
  · have hcalls : acceptCalls a p = [] := by simp [acceptCalls, h1]
    rw [hcalls, ← Option.some.inj ha]
    exact ⟨w, rfl, hpoll⟩

theorem iteration_keeps (h : List Call) (a : Answers) :
    Triple next
      (fun v w => Inv socketFd v w ∧ replay next (opened socketFd) h = some w ∧ Fresh socketFd h v a)
      (iteration socketFd a) fun _ => Inv socketFd := by
  rintro v w ⟨hs | hc, hw, hfresh⟩
  · rw [(iteration_running hs.running).1, (iteration_running hs.running).2]
    cases ha : accepted a (v.polled a) with
    | none =>
      rw [(acceptClient_of_not_accepted ha).1, (acceptClient_of_not_accepted ha).2]
      exact ⟨w, rfl, Or.inl (hs.polled a)⟩
    | some u =>
      obtain ⟨w', hr, hs'⟩ := hs.after_accept hw hfresh ha
      obtain ⟨w'', hr', hinv⟩ := serve_keeps a u w' hs'
      rw [(acceptClient_of_accepted ha).1, (acceptClient_of_accepted ha).2]
      exact ⟨w'', by rw [replay_append_some hr, hr'], hinv⟩
  · rw [(iteration_stopped hc.stopped).1, (iteration_stopped hc.stopped).2]
    exact ⟨w, rfl, Or.inr hc⟩

/-! ## The writes of an iteration -/

/-- What is written, and to which descriptors. -/
def writes (cs : List Call) : List (Int × List UInt8) :=
  cs.filterMap fun
    | .write fd data => some (fd, data)
    | _ => none

/-- A call that neither writes to a client nor says that there is none. -/
def Call.Quiet (c : Call) : Prop := (∀ fd data, c ≠ .write fd data) ∧ c ≠ .printf noClientsConnected

theorem writes_append (cs ds : List Call) : writes (cs ++ ds) = writes cs ++ writes ds :=
  List.filterMap_append ..

theorem writes_of_quiet {cs : List Call} (h : ∀ c ∈ cs, c.Quiet) : writes cs = [] := by
  refine List.filterMap_eq_nil_iff.2 fun c hc => ?_
  have hq := (h c hc).1
  cases c with
  | write fd data => exact absurd rfl (hq fd data)
  | _ => rfl

theorem acceptCalls_quiet (a : Answers) (v : Vars) : ∀ c ∈ acceptCalls a v, c.Quiet := by
  have htext : "\n[client connected: " ++ a.clientIp ++ "]\n" ≠ noClientsConnected := by
    intro h
    have h3 := congrArg (fun s : String => s.toList.take 3) h
    simp [noClientsConnected] at h3
  intro c hc
  unfold acceptCalls at hc
  split_ifs at hc
  · obtain rfl : c = .perror "Accept" := by simpa using hc
    exact ⟨by simp, by simp⟩
  · rcases List.mem_cons.1 hc with rfl | hc
    · exact ⟨by simp, by simp⟩
    · obtain rfl := List.mem_singleton.1 hc
      exact ⟨by simp, by simpa using htext⟩
  · cases hc

theorem readClients_quiet (a : Answers) : AllCalls Call.Quiet (readClients a) := by
  have hdisconnect : ∀ i, AllCalls Call.Quiet (disconnect i) := fun i =>
    .bind .get fun _ => .bind (.call ⟨by simp, by simp⟩) fun _ => .modify _
  have hrest : ∀ size, AllCalls Call.Quiet
      (get >>= fun v : Vars => call (.fwrite size (v.buffer.take size)) >>= fun _ => call .fflush) :=
    fun size => .bind .get fun _ => .bind (.call ⟨by simp, by simp⟩) fun _ =>
      .call ⟨by simp, by simp⟩
  refine .bind .get fun _ => .forBelow (fun i => .bind .get fun v => .ite ?_ (.pure ())) _ _
  refine .bind (.call ⟨by simp, by simp⟩) fun _ => .bind (.modify _) fun _ => ?_
  match read bufferSize (a.read i) with
  | none => exact .bind (.call ⟨by simp, by simp⟩) fun _ => .bind (hdisconnect i) fun _ => hrest _
  | some [] =>
    exact .bind (.call ⟨by simp, by simp [noClientsConnected]⟩) fun _ =>
      .bind (hdisconnect i) fun _ => hrest _
  | some (_ :: _) => exact hrest _

/-- The writes of an iteration are those of its second job. -/
theorem serve_writes (socketFd : Int) (a : Answers) (u : Vars) :
    writes ((serve socketFd a).calls u) = writes (broadcastCalls a u) ∧
    (.printf noClientsConnected ∈ (serve socketFd a).calls u ↔
      .printf noClientsConnected ∈ broadcastCalls a u) := by
  have hquiet : ∀ v, ∀ c ∈ (readClients a >>= fun _ => if a.poll = -1 then
      (call (.perror "Poll") >>= fun _ => cleanup socketFd) else pure () : Prog Vars Call Unit).calls v,
      c.Quiet := by
    have hcleanup : AllCalls Call.Quiet (cleanup socketFd) := by
      intro v c hc
      rw [(cleanup_spec socketFd v).2] at hc
      obtain ⟨fd, -, rfl⟩ := List.mem_map.1 hc
      exact ⟨by simp, by simp⟩
    exact AllCalls.bind (readClients_quiet a) fun _ =>
      .ite (.bind (.call ⟨by simp, by simp⟩) fun _ => hcleanup) (.pure ())
  have hcalls : (serve socketFd a).calls u = broadcastCalls a u ++
      (readClients a >>= fun _ => if a.poll = -1 then
        (call (.perror "Poll") >>= fun _ => cleanup socketFd) else pure () :
        Prog Vars Call Unit).calls ((broadcast a).final u) := by
    rw [← (broadcast_spec a u).2]
    rfl
  rw [hcalls]
  constructor
  · rw [writes_append, writes_of_quiet (hquiet _), List.append_nil]
  · rw [List.mem_append]
    exact ⟨fun h => h.resolve_right fun h => (hquiet _ _ h).2 rfl, Or.inl⟩

/-- The chunk that an iteration reads from standard input, and the variables with which it is
broadcast: a client accepted in the same iteration is among them. -/
def chunkRead (a : Answers) (v : Vars) : Option (List UInt8 × Vars) :=
  if v.running = true then
    (accepted a (v.polled a)).bind fun u => (stdinChunk a u).map fun chunk => (chunk, u)
  else none

theorem chunkRead_accepted {chunk : List UInt8} (h : chunkRead a v = some (chunk, u)) :
    v.running = true ∧ accepted a (v.polled a) = some u := by
  unfold chunkRead at h
  split_ifs at h with hrun
  obtain ⟨u', ha, h'⟩ := Option.bind_eq_some_iff.1 h
  obtain ⟨chunk', -, heq⟩ := Option.map_eq_some_iff.1 h'
  exact ⟨hrun, (Prod.mk.inj heq).2 ▸ ha⟩

/-- An iteration that reads no chunk writes to nobody. -/
theorem writes_of_not_read (socketFd : Int) (h : chunkRead a v = none) :
    writes ((iteration socketFd a).calls v) = [] ∧
    .printf noClientsConnected ∉ (iteration socketFd a).calls v := by
  by_cases hrun : v.running = true
  · rw [(iteration_running hrun).2]
    cases ha : accepted a (v.polled a) with
    | none =>
      rw [(acceptClient_of_not_accepted ha).2]
      exact ⟨rfl, by simp⟩
    | some u =>
      have hchunk : stdinChunk a u = none := by simpa [chunkRead, hrun, ha] using h
      obtain ⟨h1, h2⟩ := serve_writes socketFd a u
      have hq := acceptCalls_quiet a (v.polled a)
      have hb : broadcastCalls a u = [] ∨
          broadcastCalls a u = [.readStdin (read bufferSize a.stdin)] := by
        unfold broadcastCalls
        split_ifs
        · exact Or.inr (by rw [hchunk])
        · exact Or.inl rfl
      rw [(acceptClient_of_accepted ha).2]
      constructor
      · rw [writes_append, writes_of_quiet hq, List.nil_append, h1]
        rcases hb with hb | hb <;> rw [hb] <;> rfl
      · rw [List.mem_append, h2]
        rintro (hmem | hmem)
        · exact (hq _ hmem).2 rfl
        · rcases hb with hb | hb <;> simp [hb] at hmem
  · rw [(iteration_stopped (by simpa using hrun)).2]
    exact ⟨rfl, by simp⟩

/-- The calls write a chunk to every client in the table, once to each and to nobody else, and they say
that there is none exactly if the table is empty. -/
structure Delivers (chunk : List UInt8) (u : Vars) (cs : List Call) : Prop where
  once : (writes cs).Nodup
  mem_iff : ∀ fd data, (fd, data) ∈ writes cs ↔ data = chunk ∧ ∃ i, u.Occupied i ∧ (u.pollt i).fd = fd
  printed_iff : .printf noClientsConnected ∈ cs ↔ ∀ i, ¬ u.Occupied i

/-- The calls of an iteration that reads a chunk deliver it. -/
theorem delivers_of_read {chunk : List UInt8} (h : chunkRead a v = some (chunk, u))
    (hs : Sound socketFd u w) : Delivers chunk u ((iteration socketFd a).calls v) := by
  unfold chunkRead at h
  split_ifs at h with hrun
  obtain ⟨u', ha, h'⟩ := Option.bind_eq_some_iff.1 h
  obtain ⟨chunk', hchunk, heq⟩ := Option.map_eq_some_iff.1 h'
  obtain ⟨rfl, rfl⟩ := Prod.mk.inj heq
  have hready : 0 < a.poll ∧ (u'.pollt 1).readable = true := by
    by_contra hr
    simp [stdinChunk, hr] at hchunk
  -- of all the calls only those of the second job count
  have hcalls : broadcastCalls a u' = .readStdin (read bufferSize a.stdin) ::
      sendCalls u' chunk' := by
    unfold broadcastCalls
    rw [if_pos hready, hchunk]
  have hwrites : writes ((iteration socketFd a).calls v) =
      u'.inUse.map fun i => ((u'.pollt i).fd, chunk') := by
    have htail : writes (if u'.inUse = [] then [.printf noClientsConnected] else []) = [] := by
      split <;> rfl
    have hcons : ∀ r cs, writes (.readStdin r :: cs) = writes cs := fun _ _ => rfl
    have hmap : writes (u'.inUse.map fun i => Call.write (u'.pollt i).fd chunk') =
        u'.inUse.map fun i => ((u'.pollt i).fd, chunk') := by
      rw [writes, List.filterMap_map]
      exact congrFun List.filterMap_eq_map _
    rw [(iteration_running hrun).2, (acceptClient_of_accepted ha).2, writes_append,
      writes_of_quiet (acceptCalls_quiet a _), List.nil_append, (serve_writes _ a u').1, hcalls, hcons,
      sendCalls, writes_append, htail, List.append_nil, hmap]
  have hprinted : .printf noClientsConnected ∈ (iteration socketFd a).calls v ↔ u'.inUse = [] := by
    rw [(iteration_running hrun).2, (acceptClient_of_accepted ha).2, List.mem_append,
      (serve_writes _ a u').2, hcalls]
    have hq : .printf noClientsConnected ∉ acceptCalls a (v.polled a) := fun hmem =>
      (acceptCalls_quiet a _ _ hmem).2 rfl
    simp only [hq, sendCalls, false_or, List.mem_cons, reduceCtorEq, List.mem_append, List.mem_map,
      and_false, exists_false]
    split_ifs with hnil <;> simp [hnil]
  refine ⟨?_, fun fd data => ?_, ?_⟩
  · rw [hwrites]
    refine List.Nodup.map_on (fun i hi j hj hij => ?_) (inUse_nodup u')
    exact hs.distinct (hs.occupied_iff.2 hi) (hs.occupied_iff.2 hj) (Prod.mk.inj hij).1
  · rw [hwrites, List.mem_map]
    constructor
    · rintro ⟨i, hi, heq⟩
      obtain ⟨rfl, rfl⟩ := Prod.mk.inj heq
      exact ⟨rfl, i, hs.occupied_iff.2 hi, rfl⟩
    · rintro ⟨rfl, i, hi, rfl⟩
      exact ⟨i, hs.occupied_iff.1 hi, rfl⟩
  · rw [hprinted, List.eq_nil_iff_forall_not_mem]
    exact forall_congr' fun i => not_congr hs.occupied_iff.symm

/-! ## A round of the process -/

variable {r : Round} {rs : List Round}

theorem mem_writes {cs : List Call} {fd : Int} {data : List UInt8} :
    (fd, data) ∈ writes cs ↔ .write fd data ∈ cs := by
  unfold writes
  rw [List.mem_filterMap]
  constructor
  · rintro ⟨c, hc, heq⟩
    cases c <;> simp at heq
    obtain ⟨rfl, rfl⟩ := heq
    exact hc
  · exact fun h => ⟨_, h, rfl⟩

/-- All calls of a round return if and only if no `write` raises `SIGPIPE`. -/
theorem returned_eq_iff : returned socketFd r v = (iteration socketFd r.answers).calls v ↔
    ∀ fd data, (fd, data) ∈ writes ((iteration socketFd r.answers).calls v) → r.broken fd = false := by
  rw [returned, List.takeWhile_eq_self_iff]
  constructor
  · intro h fd data hmem
    have hc := h _ (mem_writes.1 hmem)
    simpa [Call.raises] using hc
  · intro h c hc
    cases c with
    | write fd data => simpa [Call.raises] using h fd data (mem_writes.2 hc)
    | _ => rfl

/-- No `write` that returns raises `SIGPIPE`. -/
theorem broken_of_returned {fd : Int} {data : List UInt8} (h : (fd, data) ∈ writes (returned socketFd r v)) :
    r.broken fd = false := by
  have hc := List.mem_takeWhile_imp (mem_writes.1 h)
  simpa [Call.raises] using hc

/-- The calls that return deliver a chunk if and only if no client in the table has closed its
connection and reset it. -/
theorem delivers_returned_iff {chunk : List UInt8}
    (h : Delivers chunk u ((iteration socketFd r.answers).calls v)) :
    Delivers chunk u (returned socketFd r v) ↔ ∀ i, u.Occupied i → r.broken (u.pollt i).fd = false := by
  constructor
  · intro hret i hi
    exact broken_of_returned ((hret.mem_iff _ chunk).2 ⟨rfl, i, hi, rfl⟩)
  · intro hbroken
    rw [returned_eq_iff.2]
    · exact h
    · intro fd data hmem
      obtain ⟨-, i, hi, rfl⟩ := (h.mem_iff fd data).1 hmem
      exact hbroken i hi

/-- The rounds of a process that has not ended are iterations of the loop. -/
theorem replay_round (hrun : replay (round socketFd) u rs = some v) :
    v = (pollLoop socketFd (rs.map Round.answers)).final u := by
  induction rs generalizing u with
  | nil => exact (Option.some.inj hrun).symm
  | cons r rs ih =>
    obtain ⟨u', hround, hrest⟩ := Option.bind_eq_some_iff.1 hrun
    unfold round at hround
    split_ifs at hround
    rw [ih hrest, ← Option.some.inj hround]
    rfl

/-! ## The end of the loop -/

/-- With a `poll` that failed, what is done last is `cleanup`, with the slots as they are then. -/
theorem iteration_of_poll_error (socketFd : Int) (hrun : v.running = true) (hpoll : a.poll = -1) :
    ∃ (u : Vars) (cs : List Call), (iteration socketFd a).final v = { u with running := false } ∧
      (iteration socketFd a).calls v =
        cs ++ (socketFd :: u.inUse.map fun i => (u.pollt i).fd).map .close := by
  have hnot : ¬ (0 < a.poll ∧ ((v.polled a).pollt 0).readable = true) := fun h => by
    rw [hpoll] at h
    exact absurd h.1 (by decide)
  have hacc : accepted a (v.polled a) = some (v.polled a) := if_neg hnot
  have hcalls : acceptCalls a (v.polled a) = [] := if_neg hnot
  have hserve : ∀ s, (serve socketFd a).final s =
        (cleanup socketFd).final ((readClients a).final ((broadcast a).final s)) ∧
      (serve socketFd a).calls s = ((broadcast a).calls s ++
        ((readClients a).calls ((broadcast a).final s) ++ [.perror "Poll"])) ++
          (cleanup socketFd).calls ((readClients a).final ((broadcast a).final s)) := by
    intro s
    simp [serve, hpoll]
  obtain ⟨hfin, hclose⟩ := cleanup_spec socketFd ((readClients a).final ((broadcast a).final (v.polled a)))
  rw [(iteration_running hrun).1, (iteration_running hrun).2, (acceptClient_of_accepted hacc).1,
    (acceptClient_of_accepted hacc).2, hcalls, List.nil_append, (hserve _).1, (hserve _).2, hfin, hclose]
  exact ⟨_, _, rfl, rfl⟩

/-- What a round with a failed `poll` does: it closes the listening socket and every client whose slot
is in use, and the loop has ended. -/
structure CleansUp (socketFd : Int) (v' : Vars) (cs : List Call) : Prop where
  stopped : v'.running = false
  listening : .close socketFd ∈ cs
  clients : ∀ i, v'.Occupied i → .close (v'.pollt i).fd ∈ cs

theorem cleansUp_of_poll_error (hrun : v.running = true) (hpoll : a.poll = -1)
    (hcovered : SlotTable.Covers ((iteration socketFd a).final v).Occupied
      ((iteration socketFd a).final v).nfds) :
    CleansUp socketFd ((iteration socketFd a).final v) ((iteration socketFd a).calls v) := by
  obtain ⟨u, cs, hfin, hcalls⟩ := iteration_of_poll_error socketFd hrun hpoll
  rw [hfin] at hcovered
  rw [hfin, hcalls]
  refine ⟨rfl, List.mem_append_right cs (List.mem_map_of_mem List.mem_cons_self), fun i hi => ?_⟩
  have hlt : i < u.nfds := hcovered i hi
  have hin : i ∈ u.inUse := by
    have h2 := hi.1
    refine List.mem_filter.2 ⟨List.mem_range'_1.2 (by omega), decide_eq_true hi.2.2⟩
  exact List.mem_append_right cs
    (List.mem_map_of_mem (List.mem_cons_of_mem _ (List.mem_map_of_mem (f := fun i => (u.pollt i).fd) hin)))

/-! ## Whole runs -/

/-- A chunk that is read in a round is delivered unless some client in the table has closed its
connection and reset it; and without a chunk nothing is written. -/
theorem round_writes (h : Inv socketFd v w) {cs : List Call} (hw : replay next (opened socketFd) cs = some w)
    (hfresh : Fresh socketFd cs v r.answers) :
    (∀ chunk u, chunkRead r.answers v = some (chunk, u) →
      (Delivers chunk u (returned socketFd r v) ↔ ∀ i, u.Occupied i → r.broken (u.pollt i).fd = false)) ∧
    (chunkRead r.answers v = none →
      writes (returned socketFd r v) = [] ∧ .printf noClientsConnected ∉ returned socketFd r v) := by
  constructor
  · intro chunk u hread
    obtain ⟨hrun, hacc⟩ := chunkRead_accepted hread
    rcases h with hs | hc
    · obtain ⟨w', -, hu⟩ := hs.after_accept hw hfresh hacc
      exact delivers_returned_iff (delivers_of_read hread hu)
    · rw [hc.stopped] at hrun
      cases hrun
  · intro hread
    obtain ⟨hnone, hprinted⟩ := writes_of_not_read socketFd hread
    have hall : returned socketFd r v = (iteration socketFd r.answers).calls v :=
      returned_eq_iff.2 fun fd data hmem => by simp [hnone] at hmem
    rw [hall]
    exact ⟨hnone, hprinted⟩

/-- The loop ends with a `poll` that fails, in `cleanup`, and with no other. -/
theorem round_ends (h : Sound socketFd v w) {cs : List Call} (hw : replay next (opened socketFd) cs = some w)
    (hfresh : Fresh socketFd cs v r.answers) :
    (r.answers.poll = -1 →
      CleansUp socketFd ((iteration socketFd r.answers).final v) (returned socketFd r v)) ∧
    (r.answers.poll ≠ -1 → ((iteration socketFd r.answers).final v).running = true) := by
  constructor
  · intro hpoll
    have hcovered : SlotTable.Covers ((iteration socketFd r.answers).final v).Occupied
        ((iteration socketFd r.answers).final v).nfds := by
      obtain ⟨w', -, hs | hc⟩ := iteration_keeps cs r.answers v w ⟨Or.inl h, hw, hfresh⟩
      · exact hs.covered
      · exact hc.covered
    have hread : chunkRead r.answers v = none := by
      have hnot : ∀ u, stdinChunk r.answers u = none := fun u => if_neg fun hready => by
        rw [hpoll] at hready
        exact absurd hready.1 (by decide)
      simp [chunkRead, hnot]
    have hall : returned socketFd r v = (iteration socketFd r.answers).calls v :=
      returned_eq_iff.2 fun fd data hmem => by simp [(writes_of_not_read socketFd hread).1] at hmem
    rw [hall]
    exact cleansUp_of_poll_error h.running hpoll hcovered
  · intro hpoll
    rw [(iteration_running h.running).1]
    cases ha : accepted r.answers (v.polled r.answers) with
    | none =>
      rw [(acceptClient_of_not_accepted ha).1]
      exact (h.polled r.answers).running
    | some u =>
      obtain ⟨w', -, hu⟩ := h.after_accept hw hfresh ha
      obtain ⟨w'', -, hs⟩ := serve_keeps_sound hpoll u w' hu
      rw [(acceptClient_of_accepted ha).1]
      exact hs.running

/-- An iteration in which `accept` returns `fd` and `h` is read from standard input. -/
def connects (fd : Int) : Answers where
  poll := 2
  revents i := if i < 2 then POLLIN else 0
  accept := fd
  clientIp := "127.0.0.1"
  stdin := some [104]
  read _ := none

/-- A round in which no connection has been reset. -/
def undisturbed (a : Answers) : Round := ⟨a, fun _ => false⟩

theorem round_undisturbed (a : Answers) (v : Vars) :
    round socketFd v (undisturbed a) = some ((iteration socketFd a).final v) := by
  have hnone : ¬ ∃ c ∈ (iteration socketFd (undisturbed a).answers).calls v,
      c.raises (undisturbed a).broken = true := by
    rintro ⟨c, -, hc⟩
    cases c <;> cases hc
  rw [round, if_neg hnone]
  rfl

/-- The loop head after one client has connected. -/
def oneConnected : Vars := (pollLoop 3 [connects 4]).final (initial 3 fun _ => ⟨-1, 0, 0⟩)

theorem oneConnected_reached :
    replay (round 3) (initial 3 fun _ => ⟨-1, 0, 0⟩) [undisturbed (connects 4)] = some oneConnected := by
  have hlast : oneConnected = (iteration 3 (connects 4)).final (initial 3 fun _ => ⟨-1, 0, 0⟩) := by
    rw [oneConnected, pollLoop, final_forEach_cons, final_forEach_nil]
  rw [replay_cons, round_undisturbed, Option.bind_some, replay_nil, hlast]

theorem oneConnected_fresh :
    AllSteps (iteration 3) (Fresh 3) [] (initial 3 fun _ => ⟨-1, 0, 0⟩) [connects 4] := by
  refine ⟨fun w hw fd hfd => ?_, trivial⟩
  obtain rfl : opened 3 = w := Option.some.inj hw
  have hcalls : (iteration 3 (connects 4)).calls (initial 3 fun _ => ⟨-1, 0, 0⟩) =
      [.accept 4, .printf "\n[client connected: 127.0.0.1]\n", .readStdin (some [104]),
        .write 4 [104]] := by decide
  rw [hcalls] at hfd
  obtain rfl : fd = 4 := by simpa using hfd
  rfl

theorem second_fresh :
    Fresh 3 ((pollLoop 3 [connects 4]).calls (initial 3 fun _ => ⟨-1, 0, 0⟩)) oneConnected
      (connects 5) := by
  intro w' hw' fd hfd
  have hcalls : (iteration 3 (connects 5)).calls oneConnected =
      [.accept 5, .printf "\n[client connected: 127.0.0.1]\n", .readStdin (some [104]),
        .write 4 [104], .write 5 [104]] := by decide
  rw [hcalls] at hfd
  obtain rfl : fd = 5 := by simpa using hfd
  cases hw'
  rfl

/-- The chunk of the second round, and the table with the client that it accepts. -/
theorem second_chunkRead : chunkRead (connects 5) oneConnected =
    some ([104], (oneConnected.polled (connects 5)).stored 5) := rfl

end SystemsProgramming.TcpSuite.Server
