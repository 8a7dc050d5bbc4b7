import Mathlib

namespace PkgManager.Fragments

variable {φ κ α : Type}

/-- What a frame is in a stream of messages of kind `κ` that may come in fragments. -/
inductive Role (κ : Type) where
  | control
  | start (kind : κ)
  | more
  | other

/-- How the frames of a stream are read. -/
structure Framing (φ κ α : Type) where
  role : φ → Role κ
  last : φ → Bool
  body : φ → List α

structure Message (κ α : Type) where
  kind : κ
  body : List α

/-- The messages that are complete, and the one that is not. -/
structure Read (κ α : Type) where
  messages : List (Message κ α)
  unfinished : Option (Message κ α)

def Read.start : Read κ α := ⟨[], none⟩

/-- Take the next fragment of `m`, which may be the last one. -/
def Read.take (ms : List (Message κ α)) (m : Message κ α) : Bool → Read κ α
  | true => ⟨ms ++ [m], none⟩
  | false => ⟨ms, some m⟩

/-- One frame: control frames stand anywhere, a message starts where none is
unfinished and goes on where one is. -/
def accept (F : Framing φ κ α) (r : Read κ α) (f : φ) : Option (Read κ α) :=
  match F.role f, r.unfinished with
  | .control, _ => some r
  | .start k, none => some (.take r.messages ⟨k, F.body f⟩ (F.last f))
  | .more, some m => some (.take r.messages ⟨m.kind, m.body ++ F.body f⟩ (F.last f))
  | _, _ => none

/-- The frames are read one by one, each within the limit `L`. -/
inductive Reads (F : Framing φ κ α) (L : Read κ α → φ → Prop) : List φ → Read κ α → Prop
  | nil : Reads F L [] .start
  | frame {fs : List φ} {r r' : Read κ α} {f : φ} :
      Reads F L fs r → L r f → accept F r f = some r' → Reads F L (fs ++ [f]) r'

/-- What follows the first fragment of a message, up to the last one. -/
inductive Rest (F : Framing φ κ α) : List φ → List α → Prop
  | control {f : φ} {fs : List φ} {b : List α} :
      F.role f = .control → Rest F fs b → Rest F (f :: fs) b
  | more {f : φ} {fs : List φ} {b : List α} :
      F.role f = .more → F.last f = false → Rest F fs b → Rest F (f :: fs) (F.body f ++ b)
  | last {f : φ} : F.role f = .more → F.last f = true → Rest F [f] (F.body f)

/-- The grammar of a stream of complete messages. -/
inductive Sentence (F : Framing φ κ α) : List φ → List (Message κ α) → Prop
  | nil : Sentence F [] []
  | control {f : φ} {fs : List φ} {ms : List (Message κ α)} :
      F.role f = .control → Sentence F fs ms → Sentence F (f :: fs) ms
  | whole {f : φ} {fs : List φ} {k : κ} {ms : List (Message κ α)} :
      F.role f = .start k → F.last f = true → Sentence F fs ms →
      Sentence F (f :: fs) (⟨k, F.body f⟩ :: ms)
  | split {f : φ} {gs fs : List φ} {k : κ} {b : List α} {ms : List (Message κ α)} :
      F.role f = .start k → F.last f = false → Rest F gs b → Sentence F fs ms →
      Sentence F (f :: (gs ++ fs)) (⟨k, F.body f ++ b⟩ :: ms)

variable {F : Framing φ κ α} {L : Read κ α → φ → Prop}

/-! Reading from any point on. -/

/-- Read on from `r`. -/
inductive ReadsOn (F : Framing φ κ α) (L : Read κ α → φ → Prop) :
    Read κ α → List φ → Read κ α → Prop
  | nil (r : Read κ α) : ReadsOn F L r [] r
  | frame {r r' r'' : Read κ α} {f : φ} {fs : List φ} :
      L r f → accept F r f = some r' → ReadsOn F L r' fs r'' → ReadsOn F L r (f :: fs) r''

theorem ReadsOn.append {r r' r'' : Read κ α} {fs gs : List φ} (h : ReadsOn F L r fs r')
    (k : ReadsOn F L r' gs r'') : ReadsOn F L r (fs ++ gs) r'' := by
  induction h with
  | nil => exact k
  | frame hl ha _ ih => exact .frame hl ha (ih k)

theorem Reads.append {r r' : Read κ α} {fs gs : List φ} (h : Reads F L fs r)
    (k : ReadsOn F L r gs r') : Reads F L (fs ++ gs) r' := by
  induction k generalizing fs with
  | nil => rwa [List.append_nil]
  | frame hl ha _ ih =>
    rw [List.append_cons]
    exact ih (.frame h hl ha)

theorem reads_iff {r : Read κ α} {fs : List φ} : Reads F L fs r ↔ ReadsOn F L .start fs r := by
  constructor
  · intro h
    induction h with
    | nil => exact .nil _
    | frame _ hl ha ih => exact ih.append (.frame hl ha (.nil _))
  · intro h
    have hn := Reads.append (F := F) (L := L) .nil h
    rwa [List.nil_append] at hn

/-! The rules read exactly the grammar. -/

def anything (_ : Read κ α) (_ : φ) : Prop := True

/-- A stream that can be read stays within every limit its frames meet one by one. -/
theorem Reads.within {fs : List φ} {r : Read κ α} (h : Reads F anything fs r)
    (hl : ∀ gs f rest r', fs = gs ++ f :: rest → Reads F anything gs r' → L r' f) :
    Reads F L fs r := by
  induction h with
  | nil => exact .nil
  | @frame fs r r' f hr _ ha ih =>
    refine .frame (ih fun gs g rest r'' he hg => ?_) (hl fs f [] r rfl hr) ha
    exact hl gs g (rest ++ [f]) r'' (by rw [he, List.append_assoc]; rfl) hg

theorem accept_control {f : φ} (h : F.role f = .control) (r : Read κ α) :
    accept F r f = some r := by
  unfold accept
  rw [h]

theorem accept_start {f : φ} {k : κ} (h : F.role f = .start k) (ms : List (Message κ α)) :
    accept F ⟨ms, none⟩ f = some (.take ms ⟨k, F.body f⟩ (F.last f)) := by
  unfold accept
  rw [h]

theorem accept_more {f : φ} (h : F.role f = .more) (ms : List (Message κ α)) (m : Message κ α) :
    accept F ⟨ms, some m⟩ f = some (.take ms ⟨m.kind, m.body ++ F.body f⟩ (F.last f)) := by
  unfold accept
  rw [h]

theorem Rest.reads {gs : List φ} {b : List α} (h : Rest F gs b) (ms : List (Message κ α))
    (m : Message κ α) :
    ReadsOn F anything ⟨ms, some m⟩ gs ⟨ms ++ [⟨m.kind, m.body ++ b⟩], none⟩ := by
  induction h generalizing m with
  | control hr _ ih => exact .frame trivial (accept_control hr _) (ih m)
  | @more f fs b hr hl _ ih =>
    refine .frame trivial (accept_more hr ms m) ?_
    rw [hl, ← List.append_assoc]
    exact ih ⟨m.kind, m.body ++ F.body f⟩
  | last hr hl =>
    refine .frame trivial (accept_more hr ms m) ?_
    rw [hl]
    exact .nil _

theorem Sentence.reads {fs : List φ} {ms : List (Message κ α)} (h : Sentence F fs ms)
    (before : List (Message κ α)) :
    ReadsOn F anything ⟨before, none⟩ fs ⟨before ++ ms, none⟩ := by
  induction h generalizing before with
  | nil => rw [List.append_nil]; exact .nil _
  | control hr _ ih => exact .frame trivial (accept_control hr _) (ih before)
  | @whole f fs k ms hr hl _ ih =>
    refine .frame trivial (accept_start hr before) ?_
    rw [hl, List.append_cons]
    exact ih (before ++ [⟨k, F.body f⟩])
  | @split f gs fs k b ms hr hl hrest _ ih =>
    refine .frame trivial (accept_start hr before) ?_
    rw [hl, List.append_cons]
    exact (hrest.reads before ⟨k, F.body f⟩).append (ih _)

/-- What reading on to a point where no message is unfinished says about the frames. -/
def Parsed (F : Framing φ κ α) (fs : List φ) (ms : List (Message κ α)) : Read κ α → Prop
  | ⟨before, none⟩ => ∃ new, ms = before ++ new ∧ Sentence F fs new
  | ⟨before, some m⟩ => ∃ gs rest b new, fs = gs ++ rest ∧ Rest F gs b ∧ Sentence F rest new ∧
      ms = before ++ ⟨m.kind, m.body ++ b⟩ :: new

theorem parsed_cons {f : φ} {fs : List φ} {ms : List (Message κ α)} {r r' : Read κ α}
    (ha : accept F r f = some r') (h : Parsed F fs ms r') : Parsed F (f :: fs) ms r := by
  obtain ⟨before, o⟩ := r
  unfold accept at ha
  cases hrole : F.role f with
  | control =>
    rw [hrole] at ha
    obtain rfl := Option.some.inj ha
    cases o with
    | none =>
      obtain ⟨new, rfl, hs⟩ := h
      exact ⟨new, rfl, .control hrole hs⟩
    | some m =>
      obtain ⟨gs, rest, b, new, rfl, hr, hs, rfl⟩ := h
      exact ⟨f :: gs, rest, b, new, rfl, .control hrole hr, hs, rfl⟩
  | start k =>
    rw [hrole] at ha
    cases o with
    | none =>
      obtain rfl := Option.some.inj ha
      cases hl : F.last f with
      | true =>
        rw [hl] at h
        obtain ⟨new, rfl, hs⟩ := h
        exact ⟨_ :: new, List.append_cons .. |>.symm, .whole hrole hl hs⟩
      | false =>
        rw [hl] at h
        obtain ⟨gs, rest, b, new, rfl, hr, hs, rfl⟩ := h
        exact ⟨_ :: new, rfl, .split hrole hl hr hs⟩
    | some m => cases ha
  | more =>
    rw [hrole] at ha
    cases o with
    | none => cases ha
    | some m =>
      obtain rfl := Option.some.inj ha
      cases hl : F.last f with
      | true =>
        rw [hl] at h
        obtain ⟨new, rfl, hs⟩ := h
        exact ⟨[f], fs, F.body f, new, rfl, .last hrole hl, hs, List.append_cons .. |>.symm⟩
      | false =>
        rw [hl] at h
        obtain ⟨gs, rest, b, new, rfl, hr, hs, rfl⟩ := h
        refine ⟨f :: gs, rest, F.body f ++ b, new, rfl, .more hrole hl hr, hs, ?_⟩
        rw [List.append_assoc]
  | other =>
    rw [hrole] at ha
    cases ha

theorem ReadsOn.parsed {r : Read κ α} {fs : List φ} {ms : List (Message κ α)}
    (h : ReadsOn F L r fs ⟨ms, none⟩) : Parsed F fs ms r := by
  generalize he : (⟨ms, none⟩ : Read κ α) = e at h
  induction h with
  | nil r =>
    subst he
    exact ⟨[], (List.append_nil ms).symm, .nil⟩
  | frame _ ha _ ih => exact parsed_cons ha (ih he)

/-- The frames are read to the end with no message unfinished exactly when they
are a sentence of the grammar. -/
theorem sentence_iff {fs : List φ} {ms : List (Message κ α)} :
    Sentence F fs ms ↔ Reads F anything fs ⟨ms, none⟩ := by
  rw [reads_iff]
  constructor
  · intro h
    exact h.reads []
  · intro h
    obtain ⟨new, rfl, hs⟩ := h.parsed
    exact hs

end PkgManager.Fragments
