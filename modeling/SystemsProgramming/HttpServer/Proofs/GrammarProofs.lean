import SystemsProgramming.HttpServer.Proofs.ContentTypeProofs

/-!
# Proofs: the request line as the expression reads it

`[^ ]*` goes over the end of the line. So the path is what lies before the first space, wherever that
is, and the version is looked for behind it.
-/

namespace SystemsProgramming.HttpServer

open Foundations

variable {text path : List UInt8} {env : Env} {arrivals : List (List UInt8)}

/-- The first line of a text, which ends before the first CR or LF. -/
def firstLine (text : List UInt8) : List UInt8 := text.takeWhile fun b => b ≠ 13 && b ≠ 10

/-- The line has the form `GET /` path ` HTTP/1` and anything after it, with no space in the path. -/
def HasForm (line path : List UInt8) : Prop := 32 ∉ path ∧ requestText path <+: line

theorem not_lineEnd_iff {s : List UInt8} :
    (∀ b ∈ s, (b ≠ 13 && b ≠ 10) = true) ↔ 13 ∉ s ∧ 10 ∉ s := by
  simp only [Bool.and_eq_true, decide_eq_true_eq]
  constructor
  · exact fun h => ⟨fun hmem => (h 13 hmem).1 rfl, fun hmem => (h 10 hmem).2 rfl⟩
  · rintro ⟨h13, h10⟩ b hb
    exact ⟨fun heq => h13 (heq ▸ hb), fun heq => h10 (heq ▸ hb)⟩

theorem hasForm_firstLine_iff :
    HasForm (firstLine text) path ↔ HasForm text path ∧ 13 ∉ path ∧ 10 ∉ path := by
  have hget : 13 ∉ ascii "GET /" ∧ 10 ∉ ascii "GET /" := by decide
  have hhttp : 13 ∉ ascii " HTTP/1" ∧ 10 ∉ ascii " HTTP/1" := by decide
  have hends : 13 ∉ requestText path ∧ 10 ∉ requestText path ↔ 13 ∉ path ∧ 10 ∉ path := by
    simp only [requestText, List.mem_append, not_or, hget, hhttp, not_false_eq_true, true_and, and_true]
  rw [HasForm, HasForm, firstLine, prefix_takeWhile_iff, not_lineEnd_iff, hends, and_assoc]

/-- The text that the handler looks at. -/
def requestOf (env : Env) (arrivals : List (List UInt8)) : List UInt8 :=
  cString (env.buffer ((arrivals.headD []).take bufferSize))

/-- The handler takes a path from a text that has the form as a whole. -/
theorem accepted_iff_hasForm (hreceived : (arrivals.headD []).take bufferSize ≠ []) :
    Accepted env arrivals path ↔ HasForm (requestOf env arrivals) path := by
  rw [Accepted, and_iff_right hreceived, urlFile_eq_some, HasForm, requestOf, prefix_cString_iff,
    zero_mem_requestText]
  exact and_congr_right fun _ => and_comm

/-- The handler takes a path exactly when the first line has the form, with this path, and no path goes
over the end of a line. -/
def FollowsGrammar (env : Env) (arrivals : List (List UInt8)) : Prop :=
  (∀ path, Accepted env arrivals path ↔ HasForm (firstLine (requestOf env arrivals)) path) ∧
    ∀ path, Accepted env arrivals path → 13 ∉ path ∧ 10 ∉ path

/-- If the text begins with `GET /` and the first line has no space behind that, the first space on a later
line is not followed by `HTTP/1`. -/
def SpaceOnFirstLine (text : List UInt8) : Prop :=
  ascii "GET /" <+: text → 32 ∉ (firstLine text).drop 5 →
    ¬ ascii " HTTP/1" <+: (text.drop 5).dropWhile (· ≠ 32)

/-- What lies before the first space, if `HTTP/1` lies behind it. -/
theorem hasForm_takeWhile (hget : ascii "GET /" <+: text)
    (hhttp : ascii " HTTP/1" <+: (text.drop 5).dropWhile (· ≠ 32)) :
    HasForm text ((text.drop 5).takeWhile (· ≠ 32)) := by
  obtain ⟨rest, rfl⟩ := hget
  rw [← get_length, List.drop_left] at hhttp ⊢
  refine ⟨fun hmem => by simpa using List.mem_takeWhile_imp hmem, ?_⟩
  rw [requestText, List.prefix_append_right_inj]
  obtain ⟨rest', hrest⟩ := hhttp
  have hsplit := List.takeWhile_append_dropWhile (p := fun b : UInt8 => decide (b ≠ 32)) (l := rest)
  rw [← hrest, ← List.append_assoc] at hsplit
  exact ⟨rest', hsplit⟩

theorem spaceOnFirstLine_iff :
    SpaceOnFirstLine text ↔ ∀ path, HasForm text path → 13 ∉ path ∧ 10 ∉ path := by
  have hget13 : ∀ b ∈ ascii "GET /", (b ≠ 13 && b ≠ 10) = true := not_lineEnd_iff.2 (by decide)
  constructor
  · rintro h path ⟨hpath, rest, rfl⟩
    rw [requestText_append] at h
    by_contra hends
    rw [← not_lineEnd_iff] at hends
    have hline : (firstLine (ascii "GET /" ++ (path ++ 32 :: (ascii "HTTP/1" ++ rest)))).drop 5 =
        path.takeWhile fun b => b ≠ 13 && b ≠ 10 := by
      rw [firstLine, List.takeWhile_append_of_pos hget13, ← get_length, List.drop_left,
        List.takeWhile_append, if_neg]
      intro hlen
      have hall := (List.takeWhile_prefix _).eq_of_length hlen
      exact hends (List.takeWhile_eq_self_iff.1 hall)
    refine h (List.prefix_append _ _) ?_ ?_
    · rw [hline]
      exact fun hmem => hpath ((List.takeWhile_prefix _).subset hmem)
    · rw [← get_length, List.drop_left, List.dropWhile_append_of_pos (ne_of_not_mem hpath)]
      exact List.prefix_append (ascii " HTTP/1") rest
  · intro h hget hspace hhttp
    have hform := hasForm_takeWhile hget hhttp
    obtain ⟨hpath, rest, hrest⟩ := hasForm_firstLine_iff.2 ⟨hform, h _ hform⟩
    rw [← hrest, requestText_append, ← get_length, List.drop_left] at hspace
    simp at hspace

/-- The handler reads requests by the grammar if and only if the first space behind `GET /` is on the
first line, or is not followed by `HTTP/1`. -/
theorem followsGrammar_iff (env : Env) (arrivals : List (List UInt8))
    (hreceived : (arrivals.headD []).take bufferSize ≠ []) :
    FollowsGrammar env arrivals ↔ SpaceOnFirstLine (requestOf env arrivals) := by
  simp only [FollowsGrammar, accepted_iff_hasForm hreceived, hasForm_firstLine_iff,
    spaceOnFirstLine_iff]
  constructor
  · exact fun h => h.2
  · exact fun h => ⟨fun path => ⟨fun hform => ⟨hform, h path hform⟩, And.left⟩, h⟩

/-- An ordinary request. -/
theorem plain_request_followsGrammar :
    FollowsGrammar ⟨[], fun _ => 0, fun _ => none⟩ [ascii "GET /a HTTP/1.1\r\nHost: b\r\n\r\n"] :=
  (followsGrammar_iff _ _ (by decide)).2 fun _ hspace => absurd hspace (by decide)

/-- A request line without a version, and a header that has one. -/
theorem header_taken_for_version : ¬ ∀ (env : Env) (arrivals : List (List UInt8)),
    (arrivals.headD []).take bufferSize ≠ [] → FollowsGrammar env arrivals := by
  intro h
  have haccepted : Accepted ⟨[], fun _ => 0, fun _ => none⟩
      [ascii "GET /a\r\nUpgrade: HTTP/1.1\r\n\r\n"] (ascii "a\r\nUpgrade:") := by
    constructor <;> decide
  exact absurd ((h _ _ haccepted.1).2 _ haccepted).1 (by decide)

end SystemsProgramming.HttpServer
