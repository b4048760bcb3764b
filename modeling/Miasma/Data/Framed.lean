import Miasma.Data.Bytes

namespace Miasma.Data

open List

/-! Frames with their length in front, one after the other.  Behind the last whole one there is
nothing, a part of a frame or a run of zeros, or bytes that no frame starts with. -/

theorem ofLE_replicate_zero {count : Nat} : ofLE (replicate count 0) = 0 := by
  rw [ofLE, reverse_replicate]
  induction count with
  | zero => rfl
  | succ count ih => simpa [ofBE, replicate_succ] using ih

def zeroFrom (position : Nat) (bytes : Bytes) : Bytes :=
  bytes.take position ++ replicate (bytes.length - position) 0

@[simp] theorem length_zeroFrom (position : Nat) (bytes : Bytes) :
    (zeroFrom position bytes).length = bytes.length := by
  simp only [zeroFrom, length_append, length_take, length_replicate]
  omega

theorem zeroFrom_of_le (past : bytes.length ≤ position) : zeroFrom position bytes = bytes := by
  simp [zeroFrom, take_of_length_le past, Nat.sub_eq_zero_of_le past]

theorem zeroFrom_append (position : Nat) (first second : Bytes) (behind : first.length ≤ position) :
    zeroFrom position (first ++ second) = first ++ zeroFrom (position - first.length) second := by
  rw [zeroFrom, zeroFrom, take_append, take_of_length_le behind, append_assoc,
    length_append, Nat.sub_sub_right _ behind, Nat.add_comm]

theorem zeroFrom_append_of_le (position : Nat) (first second : Bytes) (inside : position ≤ first.length) :
    zeroFrom position (first ++ second) = zeroFrom position first ++ replicate second.length 0 := by
  rw [zeroFrom, zeroFrom, take_append_of_le_length inside, append_assoc, replicate_append_replicate, length_append,
    Nat.sub_add_comm inside]

structure Lengths where
  least : Nat
  most : Nat
  positive : 0 < least
  fits : most < 256 ^ 4

/-- What a byte string starts with. -/
inductive Head where
  | ended
  | torn
  | corrupt
  | frame (body rest : Bytes)
deriving DecidableEq

def frame (body : Bytes) : Bytes := toLE 4 body.length ++ body

@[simp] theorem length_frame (body : Bytes) : (frame body).length = 4 + body.length := by
  simp [frame]

def frames (bodies : List Bytes) : Bytes := bodies.flatMap frame

@[simp] theorem frames_nil : frames [] = [] := rfl

@[simp] theorem frames_cons (body : Bytes) (bodies : List Bytes) :
    frames (body :: bodies) = frame body ++ frames bodies := rfl

@[simp] theorem frames_append (first second : List Bytes) :
    frames (first ++ second) = frames first ++ frames second := flatMap_append

namespace Lengths

variable (lengths : Lengths)

def Within (body : Bytes) : Prop := lengths.least ≤ body.length ∧ body.length ≤ lengths.most

def head (bytes : Bytes) : Head :=
  let len := ofLE (bytes.take 4)
  if bytes.length = 0 then .ended
  else if bytes.length < 4 then .torn
  else if len < lengths.least ∨ lengths.most < len then
    if len = 0 ∧ (bytes.drop 4).all (· = 0) then .torn else .corrupt
  else if bytes.length < 4 + len then .torn
  else .frame ((bytes.drop 4).take len) (bytes.drop (4 + len))

/-- The bodies of the whole frames in a byte string, and what is behind them. -/
inductive Laid : Bytes → List Bytes → Bytes → Prop where
  | stop {tail} (last : ∀ body rest, lengths.head tail ≠ .frame body rest) : Laid tail [] tail
  | next {bytes body rest bodies tail} (found : lengths.head bytes = .frame body rest)
      (more : Laid rest bodies tail) : Laid bytes (body :: bodies) tail

variable {lengths} {body rest bytes tail : Bytes} {bodies : List Bytes}

theorem Within.lt (within : lengths.Within body) : body.length < 256 ^ 4 := Nat.lt_of_le_of_lt within.2 lengths.fits

/-! ## One frame -/

theorem take_frame (within : lengths.Within body) (rest : Bytes) :
    ofLE ((frame body ++ rest).take 4) = body.length := by
  rw [frame, append_assoc, take_left' (length_toLE 4 _), ofLE_toLE_of_lt within.lt]

theorem head_frame (within : lengths.Within body) : lengths.head (frame body ++ rest) = .frame body rest := by
  have dropped : (frame body ++ rest).drop 4 = body ++ rest := by
    rw [frame, append_assoc, drop_left' (length_toLE 4 _)]
  have behind : (frame body ++ rest).drop (4 + body.length) = rest := drop_left' (length_frame body)
  obtain ⟨least, most⟩ := within
  simp only [head, take_frame ⟨least, most⟩, dropped, behind, length_append, length_frame]
  rw [if_neg (by omega), if_neg (by omega), if_neg (by omega), if_neg (by omega), take_left' rfl]

theorem frame_of_head (found : lengths.head bytes = .frame body rest) :
    lengths.Within body ∧ bytes = frame body ++ rest := by
  simp only [head] at found
  split at found
  · cases found
  split at found
  · cases found
  split at found
  · split at found <;> cases found
  split at found
  · cases found
  cases found
  have len : ((bytes.drop 4).take (ofLE (bytes.take 4))).length = ofLE (bytes.take 4) := by
    rw [length_take, length_drop]
    omega
  have four : (bytes.take 4).length = 4 := by
    rw [length_take]
    omega
  have prefixed := toLE_ofLE (bytes.take 4)
  rw [four] at prefixed
  refine ⟨⟨by omega, by omega⟩, ?_⟩
  rw [frame, len, prefixed, append_assoc, ← drop_drop, take_append_drop, take_append_drop]

theorem head_zeros (count : Nat) :
    lengths.head (replicate count 0) = .ended ∨ lengths.head (replicate count 0) = .torn := by
  by_cases none : count = 0
  · exact .inl (by simp [head, none])
  refine .inr ?_
  simp only [head, length_replicate, take_replicate, drop_replicate, ofLE_replicate_zero]
  by_cases few : count < 4
  · rw [if_neg none, if_pos few]
  rw [if_neg none, if_neg few, if_pos (.inl lengths.positive), if_pos]
  simp

theorem head_part (within : lengths.Within body) {count : Nat} (short : count < 4 + body.length) :
    lengths.head ((frame body).take count) = .ended ∨ lengths.head ((frame body).take count) = .torn := by
  have size : ((frame body).take count).length = count := by
    rw [length_take, length_frame]
    omega
  simp only [head, size]
  by_cases none : count = 0
  · exact .inl (if_pos none)
  refine .inr ?_
  by_cases few : count < 4
  · rw [if_neg none, if_pos few]
  have len : ofLE (((frame body).take count).take 4) = body.length := by
    have all := take_frame within []
    rw [append_nil] at all
    rw [take_take, Nat.min_eq_left (by omega), all]
  obtain ⟨least, most⟩ := within
  rw [if_neg none, if_neg few, len, if_neg (by omega), if_pos short]

/-! ## Frames one after the other -/

theorem laid_exists (lengths : Lengths) (bytes : Bytes) : ∃ bodies tail, Laid lengths bytes bodies tail := by
  induction size : bytes.length using Nat.strong_induction_on generalizing bytes with
  | h count ih =>
    cases found : lengths.head bytes with
    | frame body rest =>
      obtain ⟨within, rfl⟩ := frame_of_head found
      obtain ⟨bodies, tail, more⟩ := ih rest.length (by simp at size; omega) rest rfl
      exact ⟨body :: bodies, tail, .next found more⟩
    | ended | torn | corrupt => exact ⟨[], bytes, .stop (by simp [found])⟩

theorem laid_frames (within : ∀ body ∈ bodies, lengths.Within body)
    (last : ∀ body rest, lengths.head tail ≠ .frame body rest) :
    Laid lengths (frames bodies ++ tail) bodies tail := by
  induction bodies with
  | nil => exact .stop last
  | cons body bodies ih =>
    refine .next ?_ (ih fun other member => within other (by simp [member]))
    rw [frames_cons, append_assoc]
    exact head_frame (within body (by simp))

theorem Laid.parts (laid : Laid lengths bytes bodies tail) : bytes = frames bodies ++ tail := by
  induction laid with
  | stop => rfl
  | next found more ih =>
    obtain ⟨_, rfl⟩ := frame_of_head found
    rw [ih, frames_cons, append_assoc]

theorem Laid.stops (laid : Laid lengths bytes bodies tail) : ∀ body rest, lengths.head tail ≠ .frame body rest := by
  induction laid with
  | stop last => exact last
  | next _ _ ih => exact ih

theorem Laid.eq_nil_iff (laid : Laid lengths bytes bodies tail) : bytes = [] ↔ bodies = [] ∧ tail = [] := by
  rw [laid.parts]
  cases bodies with
  | nil => simp
  | cons body bodies => simp [frame, ← length_eq_zero_iff]

theorem take_frames (within : ∀ body ∈ bodies, lengths.Within body) (count : Nat) :
    ∃ kept part, kept <+: bodies ∧ (frames bodies).take count = frames kept ++ part ∧
      (lengths.head part = .ended ∨ lengths.head part = .torn) ∧
      ∀ whole, whole <+: bodies → (frames whole).length ≤ count → whole <+: kept := by
  induction bodies generalizing count with
  | nil =>
    refine ⟨[], [], prefix_refl _, by simp, .inl (by simp [head]), ?_⟩
    intro whole inside _
    exact inside
  | cons body bodies ih =>
    have fits := within body (by simp)
    by_cases short : count < 4 + body.length
    · refine ⟨[], (frame body).take count, nil_prefix, ?_, head_part fits short, ?_⟩
      · rw [frames_cons, take_append_of_le_length (by simp; omega), frames_nil, nil_append]
      intro whole inside small
      cases whole with
      | nil => exact nil_prefix
      | cons other rest =>
        obtain ⟨rfl, _⟩ := cons_prefix_cons.mp inside
        simp at small
        omega
    · obtain ⟨kept, part, inside, same, torn, all⟩ :=
        ih (fun other member => within other (by simp [member])) (count - (frame body).length)
      refine ⟨body :: kept, part, cons_prefix_cons.mpr ⟨rfl, inside⟩, ?_, torn, ?_⟩
      · rw [frames_cons, take_append, take_of_length_le (by simp; omega), same, frames_cons, append_assoc]
      intro whole shorter small
      cases whole with
      | nil => exact nil_prefix
      | cons other rest =>
        obtain ⟨rfl, later⟩ := cons_prefix_cons.mp shorter
        refine cons_prefix_cons.mpr ⟨rfl, all rest later ?_⟩
        simp at small ⊢
        omega

end Lengths

end Miasma.Data
