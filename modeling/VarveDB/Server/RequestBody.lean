import VarveDB.Library.Results

/-! The body of an HTTP request on its way through the server. -/
namespace VarveDB.Server
open Library List

abbrev Bytes := List UInt8

inductive Frame where
  | data (chunk : Bytes)
  | trailers
  | error

structure Request where
  contentEncoding : Option (Option String)
  frames : List Frame

inductive Error where
  | nonUtf8ContentEncodingHeader
  | invalidContentEncoding (encoding : String)
  | clientHangup
  | requestSizeExceeded (maxRequestBytes : Nat)
  | invalidGzip

/-- What the server holds at a moment: bytes of the raw body, of the frame being received, and of the decoded body. -/
structure Held where
  raw : Nat
  frame : Nat
  decoded : Nat
  deriving DecidableEq

def received : List Frame → Bytes
  | [] | .error :: _ => []
  | .data chunk :: frames => chunk ++ received frames
  | .trailers :: frames => received frames

def Complete (frames : List Frame) : Prop := ∀ frame ∈ frames, frame ≠ .error

def collect (body : Bytes) : List Frame → List Held × Option Bytes
  | [] => ([⟨body.length, 0, 0⟩], some body)
  | .error :: _ => ([⟨body.length, 0, 0⟩], none)
  | .trailers :: frames => collect body frames
  | .data chunk :: frames =>
    let (held, collected) := collect (body ++ chunk) frames
    (⟨body.length, chunk.length, 0⟩ :: held, collected)

section
variable (maxRequestBytes : Nat)

def readFrames (body : Bytes) : List Frame → List Held × Except Error Bytes
  | [] => ([⟨body.length, 0, 0⟩], .ok body)
  | .error :: _ => ([⟨body.length, 0, 0⟩], .error .clientHangup)
  | .trailers :: frames => readFrames body frames
  | .data chunk :: frames =>
    if body.length + chunk.length > maxRequestBytes then
      ([⟨body.length, chunk.length, 0⟩], .error (.requestSizeExceeded maxRequestBytes))
    else
      let (held, result) := readFrames (body ++ chunk) frames
      (⟨body.length, chunk.length, 0⟩ :: held, result)

variable (gunzip : Bytes → Bytes × Bool)

/-- One byte more than the limit is read at most, and then an error behind it is not met. -/
def decode (body : Bytes) : List Held × Except Error Bytes :=
  let (data, ok) := gunzip body
  let decoded := data.take (maxRequestBytes + 1)
  ([⟨body.length, 0, decoded.length⟩],
    if data.length ≤ maxRequestBytes ∧ ok = false then .error .invalidGzip
    else if decoded.length > maxRequestBytes then .error (.requestSizeExceeded maxRequestBytes)
    else .ok decoded)

def readPayload (frames : List Frame) (ungzip : Bool) : List Held × Except Error Bytes :=
  match readFrames maxRequestBytes [] frames with
  | (held, .error e) => (held, .error e)
  | (held, .ok body) =>
    if ungzip then (held ++ (decode maxRequestBytes gunzip body).1, (decode maxRequestBytes gunzip body).2)
    else (held, .ok body)

def readBody (req : Request) : List Held × Except Error Bytes :=
  match req.contentEncoding with
  | some none => ([], .error .nonUtf8ContentEncodingHeader)
  | none | some (some "identity") => readPayload maxRequestBytes gunzip req.frames false
  | some (some "gzip") => readPayload maxRequestBytes gunzip req.frames true
  | some (some encoding) => ([], .error (.invalidContentEncoding encoding))

/-- The body is collected before the request is routed, and handed on as one frame. Whether a handler reads it depends
on the route and on the authentication. -/
def call (req : Request) (reads : Bool) : List Held :=
  match collect [] req.frames with
  | (held, none) => held
  | (held, some body) => held ++ if reads then
      (readBody maxRequestBytes gunzip { req with frames := if body = [] then [] else [.data body] }).1 else []

/-- At no moment more than the limit besides the frame being received, nor more than one byte above it decoded. -/
def Bounded (held : List Held) : Prop := ∀ h ∈ held, h.raw ≤ maxRequestBytes ∧ h.decoded ≤ maxRequestBytes + 1

end

def Decodes (gunzip : Bytes → Bytes × Bool) (encoding : Option (Option String)) (raw b : Bytes) : Prop :=
  (encoding = none ∨ encoding = some (some "identity")) ∧ b = raw ∨ encoding = some (some "gzip") ∧
    gunzip raw = (b, true)

section
variable {M : Nat} {gunzip : Bytes → Bytes × Bool} {body b : Bytes} {frames : List Frame}

private theorem collect_bounded_iff :
    Bounded M (collect body frames).1 ↔ body.length + (received frames).length ≤ M := by
  induction frames generalizing body with
  | nil => simp [Bounded, collect, received]
  | cons frame frames ih => cases frame with
    | error => simp [Bounded, collect, received]
    | trailers => exact ih
    | data chunk =>
      have h := @ih (body ++ chunk)
      simp only [Bounded, collect, received, forall_mem_cons, length_append] at h ⊢
      rw [h]
      omega

private theorem readFrames_bounded (hbody : body.length ≤ M) : Bounded M (readFrames M body frames).1 := by
  induction frames generalizing body with
  | nil => simpa [Bounded, readFrames]
  | cons frame frames ih => cases frame with
    | error => simpa [Bounded, readFrames]
    | trailers => exact ih hbody
    | data chunk =>
      rw [readFrames]
      split_ifs with hlong
      · simpa [Bounded]
      · exact forall_mem_cons.mpr ⟨by simpa, ih (by grind)⟩

private theorem readFrames_eq_ok_iff (hbody : body.length ≤ M) : (readFrames M body frames).2 = .ok b ↔
      Complete frames ∧ (body ++ received frames).length ≤ M ∧ b = body ++ received frames := by
  induction frames generalizing body with
  | nil => simp [readFrames, Complete, received, hbody, eq_comm]
  | cons frame frames ih => cases frame with
    | error => simp [readFrames, Complete]
    | trailers => simpa [readFrames, Complete, received] using ih hbody
    | data chunk =>
      rw [readFrames]
      split_ifs with hlong
      · simp [received]
        omega
      · simpa [Complete, received] using @ih (body ++ chunk) (by grind)

private theorem decode_eq_ok_iff : (decode M gunzip body).2 = .ok b ↔ gunzip body = (b, true) ∧ b.length ≤ M := by
  rcases h : gunzip body with ⟨data, ok⟩
  by_cases hlen : data.length ≤ M
  · have htake : data.take (M + 1) = data := take_of_length_le (by omega)
    grind [decode]
  · grind [decode]

theorem readPayload_spec {ungzip : Bool} : Bounded M (readPayload M gunzip frames ungzip).1 ∧
      ((readPayload M gunzip frames ungzip).2 = .ok b ↔ Complete frames ∧ (received frames).length ≤ M ∧
        (if ungzip then gunzip (received frames) = (b, true) else b = received frames) ∧ b.length ≤ M) := by
  have hbounded : Bounded M (readFrames M [] frames).1 := readFrames_bounded (Nat.zero_le M)
  have hread := fun c => @readFrames_eq_ok_iff M [] c frames (Nat.zero_le M)
  rw [readPayload]
  rcases h : readFrames M [] frames with ⟨held, e | body⟩ <;> rw [h] at hbounded hread
  · have hnone : ¬ (Complete frames ∧ (received frames).length ≤ M) := by
      simpa using hread (received frames)
    exact ⟨hbounded, by simp; grind⟩
  · obtain ⟨hcomplete, hlen, rfl⟩ := (hread body).mp rfl
    rw [nil_append] at hlen
    cases ungzip
    · exact ⟨hbounded, by simp; grind⟩
    · exact ⟨forall_mem_append.mpr ⟨hbounded, forall_mem_singleton.mpr ⟨hlen, length_take_le ..⟩⟩,
        by simp [decode_eq_ok_iff, *]⟩

end

/-- A body is held within the limit exactly if what arrives of it is: the limit is only looked at once the whole body is
held. What is then read of it respects the limit. -/
theorem call_bounded_iff (maxRequestBytes : Nat) (gunzip : Bytes → Bytes × Bool) (req : Request) (reads : Bool) :
    (Bounded maxRequestBytes (call maxRequestBytes gunzip req reads) ↔ (received req.frames).length ≤ maxRequestBytes) ∧
      ∀ b, (readBody maxRequestBytes gunzip req).2 = .ok b ↔ Complete req.frames ∧
        (received req.frames).length ≤ maxRequestBytes ∧
        Decodes gunzip req.contentEncoding (received req.frames) b ∧ b.length ≤ maxRequestBytes := by
  constructor
  · have hcollect := @collect_bounded_iff maxRequestBytes [] req.frames
    rw [length_nil, Nat.zero_add] at hcollect
    rw [call, ← hcollect]
    split
    next held h => rw [h]
    next held body h =>
      rw [h]
      refine forall_mem_append.trans (and_iff_left ?_)
      split
      · unfold readBody
        split
        all_goals first | exact (@readPayload_spec _ _ [] _ _).1 | exact nofun
      · exact nofun
  · intro b
    unfold readBody
    split <;> simp_all [Decodes, readPayload_spec.2]

/-- Nobody has to be let in for more than the limit to be held. -/
theorem call_over_limit :
    ¬ Bounded 2 (call 2 (fun body => (body, true)) ⟨none, [.data [1, 2], .data [3, 4]]⟩ false) := by
  unfold Bounded
  decide

end VarveDB.Server
