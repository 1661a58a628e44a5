import CcCommon.Codec.Simple.Head

/-! # Which runs of codec_simple_decode stop at the first error

A call that has set `*err` is over, and so is every call around it. Only the
map and the extension branch go on after a length that is not there. For the
map that length is 2^64-1, and no `calloc` has so much: the loop writes its
first value through NULL, unless the value is refused before it is stored. -/

namespace CcCommon.Codec.Simple

open Util Lib.Descent

set_option autoImplicit false

/-! ## The state in which a call sets the error -/

def atError (s : CodecDecodeState) : Option CodecDecodeState := if s.failed then some s else none

/-- The state in which a routine that the switch calls has first set `*err`. -/
def codecSimpleSwitchError (b : Input) (s : CodecDecodeState) (bd : UInt8) :
    Option CodecDecodeState :=
  match codecSimpleDesc bd with
  | some .nil | some .false | some .true => none
  | some .posInt | some .negInt => atError (codecSimpleReadn b s (intWidth bd)).1
  | some .float32 => atError (codecDecodeStateChk b s 4).1
  | some .float64 => atError (codecDecodeStateChk b s 8).1
  | some .string | some .bytes =>
    let (s, len) := codecSimpleDecodeLen b s bd
    if s.failed then some s else atError (codecDecodeStateChk b s len).1
  | some .array | some .map => atError (codecSimpleDecodeLen b s bd).1
  | some .customExt =>
    let (s, len) := codecSimpleDecodeLen b s bd
    if s.failed then some s else atError (codecDecodeStateChk b s (sizeT (1 + len))).1
  | none => some (s.fail ("codec_simple_decode_r: invalid descriptor: " ++ toString bd.toNat))

/-- The same for the call entered at `s`, the calls inside it apart. -/
def codecSimpleCallError (b : Input) (s : CodecDecodeState) : Option CodecDecodeState :=
  match codecDecodeStateChk2 b s.enter with
  | (s, true) => some s
  | (s, false) =>
    match codecDecodeStateChk b s 1 with
    | (s, true) => some s
    | (s, false) => codecSimpleSwitchError b s.next (b.get s.pos)

/-- No error was set so far. -/
structure NoErrorYet (s : CodecDecodeState) : Prop where
  err : s.err = none
  trace : ∀ msg, .fail msg ∉ s.trace

/-- Since the first error only returns happened, and the state is the one it was set in. -/
def Unwound (b : Input) (s : CodecDecodeState) : Prop :=
  ∃ entry s₁ rets, NoErrorYet entry ∧ codecSimpleCallError b entry = some s₁ ∧
    (∀ e ∈ rets, e.isRet = true) ∧ s = { s₁ with trace := rets ++ s₁.trace }

/-- A run that returns with an error has unwound from the first one; a run that is cut short is in
the middle of a call, so it has set none. -/
def StopsAtError (b : Input) (run : Outcome CodecDecodeState Decoded) : Prop :=
  run.Ends (fun s => s.err ≠ none → Unwound b s) fun s => s.err = none

/-- A map or an extension whose length runs past the end. -/
def LenCut (b : Input) (p : Nat) : Prop :=
  p < b.len ∧ (codecSimpleDesc (b.get p) = some .map ∨ codecSimpleDesc (b.get p) = some .customExt) ∧
    b.len < p + 1 + (lenWidth ((b.get p).toNat % 8)).size

/-! ## A call without an error so far -/

/-- The first error has just been set. -/
def Failing (s : CodecDecodeState) : Prop := ∃ t msg, NoErrorYet t ∧ s = t.fail msg

section Routines

variable {b : Input} {s : CodecDecodeState}

theorem NoErrorYet.failed (h : NoErrorYet s) : s.failed = false := s.failed_eq_false_iff.mpr h.err

theorem Failing.failed (h : Failing s) : s.failed = true := by
  obtain ⟨t, msg, -, rfl⟩ := h
  rfl

theorem Failing.err (h : Failing s) : s.err ≠ none := CodecDecodeState.err_of_failed h.failed

theorem NoErrorYet.enter (h : NoErrorYet s) : NoErrorYet s.enter where
  err := h.err
  trace msg hMem := by
    rcases List.mem_cons.mp hMem with hEq | hMem
    · cases hEq
    · exact h.trace msg hMem

theorem NoErrorYet.touch (h : NoErrorYet s) (k : Nat) : NoErrorYet (s.touch k) where
  err := h.err
  trace msg hMem := by
    rcases List.mem_append.mp hMem with hRead | hMem
    · obtain ⟨j, -, hEq⟩ := List.mem_map.mp (List.mem_reverse.mp hRead)
      cases hEq
    · exact h.trace msg hMem

theorem NoErrorYet.advance (h : NoErrorYet s) (k : Nat) : NoErrorYet (s.advance k) := ⟨h.err, h.trace⟩

theorem NoErrorYet.next (h : NoErrorYet s) : NoErrorYet s.next := (h.touch 1).advance 1

theorem NoErrorYet.fail (h : NoErrorYet s) (msg : String) : Failing (s.fail msg) := ⟨s, msg, h, rfl⟩

theorem NoErrorYet.chk (h : NoErrorYet s) (k : Nat) :
    codecDecodeStateChk b s k = (s, false) ∨
      ∃ s₁, Failing s₁ ∧ codecDecodeStateChk b s k = (s₁, true) := by
  rcases codecDecodeStateChk_cases b s k with ⟨hPass, -⟩ | ⟨msg, hStop, -⟩
  · exact Or.inl hPass
  · exact Or.inr ⟨s.fail msg, h.fail msg, hStop⟩

theorem NoErrorYet.readn (h : NoErrorYet s) (w : ReadWidth) :
    NoErrorYet (codecSimpleReadn b s w).1 ∨ Failing (codecSimpleReadn b s w).1 := by
  rw [codecSimpleReadn]
  rcases h.chk w.size with hPass | ⟨s₁, hFailing, hStop⟩
  · rw [hPass]
    apply Or.inl
    dsimp only
    split
    · exact h.advance _
    · exact (h.touch 1).advance _
  · rw [hStop]
    exact Or.inr hFailing

theorem NoErrorYet.decodeLen (h : NoErrorYet s) (bd : UInt8) :
    NoErrorYet (codecSimpleDecodeLen b s bd).1 ∨ Failing (codecSimpleDecodeLen b s bd).1 := by
  rw [codecSimpleDecodeLen]
  split
  · exact Or.inl h
  · exact h.readn .w1
  · exact h.readn .w2
  · exact h.readn .w4
  · exact h.readn .w8
  · exact Or.inr (h.fail _)

end Routines

/-! ## What the head does about errors -/

/-- Something other than a return happened after an error. -/
def GoesOn (tr : List Event) : Prop :=
  ∃ newer e older msg, tr = newer ++ e :: older ∧ e.isRet = false ∧ .fail msg ∈ older

inductive HeadErrors (b : Input) (s : CodecDecodeState) : Step CodecDecodeState Decoded → Prop where
  | clean {step : Step CodecDecodeState Decoded} (hClean : NoErrorYet step.state)
      (hNot : ¬ LenCut b s.pos) : HeadErrors b s step
  | stop {s₁ : CodecDecodeState} {v : Decoded} (hFailing : Failing s₁)
      (hError : codecSimpleCallError b s = some s₁) (hNot : ¬ LenCut b s.pos) :
      HeadErrors b s (.leaf s₁ v)
  | loop {s₁ : CodecDecodeState} {n l : Nat} {c : List Decoded → Decoded} (hFailing : Failing s₁)
      (hMore : 0 < n) (hCut : LenCut b s.pos) : HeadErrors b s (.branch s₁ n l c)
  | tag {s₁ : CodecDecodeState} {v : Decoded} (hErr : s₁.err ≠ none) (hOn : GoesOn s₁.trace)
      (hCut : LenCut b s.pos) : HeadErrors b s (.leaf s₁ v)

section Head

variable {b : Input} {s s₁ : CodecDecodeState}

theorem headErrors_settled {v v' : Decoded} (h : NoErrorYet s₁ ∨ Failing s₁)
    (hError : codecSimpleCallError b s = atError s₁) (hNot : ¬ LenCut b s.pos) :
    HeadErrors b s (if s₁.failed then .leaf s₁ v else .leaf s₁ v') := by
  rcases h with hClean | hFailing
  · rw [hClean.failed, if_neg (by decide)]
    exact .clean hClean hNot
  · rw [hFailing.failed, if_pos rfl]
    refine .stop hFailing ?_ hNot
    rw [hError, atError, hFailing.failed, if_pos rfl]

theorem codecSimpleCallError_of_lt (h : s.pos < b.len) :
    codecSimpleCallError b s = codecSimpleSwitchError b s.enter.next (b.get s.pos) := by
  rw [codecSimpleCallError, codecDecodeStateChk2_pass (by simpa using h)]
  dsimp only
  rw [codecDecodeStateChk_pass (by simp; omega)]
  rfl

theorem codecSimpleCallError_of_le (h : b.len ≤ s.pos) :
    codecSimpleCallError b s = some (s.enter.fail ("codec_decode_state: pos: " ++
      toString s.pos ++ " >= len: " ++ toString b.len)) := by
  rw [codecSimpleCallError, codecDecodeStateChk2_stop (by simpa using h)]
  rfl

theorem not_lenCut {o : Option CodecSimpleDescType} (hDesc : codecSimpleDesc (b.get s.pos) = o)
    (hMap : o ≠ some .map) (hExt : o ≠ some .customExt) : ¬ LenCut b s.pos := by
  rintro ⟨-, h | h, -⟩
  · exact hMap (hDesc.symm.trans h)
  · exact hExt (hDesc.symm.trans h)

/-- The length of a map or an extension fails to be read where it is cut. -/
theorem decodeLen_cut {d : CodecSimpleDescType} (hd : d = .map ∨ d = .customExt)
    (hDesc : codecSimpleDesc (b.get s.pos) = some d) (hLt : s.pos < b.len) (hClean : NoErrorYet s) :
    (NoErrorYet (codecSimpleDecodeLen b s.enter.next (b.get s.pos)).1 ∧ ¬ LenCut b s.pos) ∨
      (Failing (codecSimpleDecodeLen b s.enter.next (b.get s.pos)).1 ∧ LenCut b s.pos ∧
        (codecSimpleDecodeLen b s.enter.next (b.get s.pos)).2 = 2 ^ 64 - 1 ∧
        (codecSimpleDecodeLen b s.enter.next (b.get s.pos)).1.pos = s.pos + 1) := by
  have hLen := b.len_lt
  have hPos : s.enter.next.pos = s.pos + 1 := CodecDecodeState.next_pos_of_lt _ (by simp; omega)
  have hLength : IsLengthDesc d := by
    rcases hd with rfl | rfl
    · exact Or.inr (Or.inr (Or.inr (Or.inl rfl)))
    · exact Or.inr (Or.inr (Or.inr (Or.inr rfl)))
  obtain ⟨s₂, x, hRun, hWalk, hCases⟩ :=
    codecSimpleDecodeLen_cases hLength hDesc hPos (by rw [hPos]; exact hLt)
  have hSettled := hClean.enter.next.decodeLen (b := b) (b.get s.pos)
  have hInside := hWalk.inside
  rw [hRun] at hSettled ⊢
  rcases hCases with ⟨w, hw, hPos₂, hSame, -⟩ | ⟨hErr, hPos₂, hValue, hShort⟩
  · refine Or.inl ⟨hSettled.resolve_right fun hFailing => ?_, ?_⟩
    · exact hFailing.err (hSame.mpr hClean.err)
    · rintro ⟨-, -, hShort⟩
      rw [← hw] at hShort
      omega
  · refine Or.inr ⟨hSettled.resolve_left fun hOk => hErr hOk.err, ⟨hLt, ?_, hShort⟩, hValue, hPos₂⟩
    rw [hDesc]
    exact hd.imp (congrArg some) (congrArg some)

theorem headErrors_ext (hDesc : codecSimpleDesc (b.get s.pos) = some .customExt)
    (hLt : s.pos < b.len) (hClean : NoErrorYet s) :
    HeadErrors b s (codecSimpleDecodeExt b s.enter.next (b.get s.pos)) := by
  have hLen := b.len_lt
  have hError := codecSimpleCallError_of_lt hLt
  rw [codecSimpleSwitchError, hDesc] at hError
  rw [codecSimpleDecodeExt]
  have hCases := decodeLen_cut (Or.inr rfl) hDesc hLt hClean
  revert hError hCases
  rcases codecSimpleDecodeLen b s.enter.next (b.get s.pos) with ⟨s₂, x⟩
  intro hError hCases
  dsimp only at hError hCases ⊢
  rcases hCases with ⟨hOk, hNot⟩ | ⟨hFailing, hCut, rfl, hPos⟩
  · rw [hOk.failed, if_neg (by decide)] at hError
    rcases hOk.chk (b := b) (sizeT (1 + x)) with hPass | ⟨s₃, hFailing, hStop⟩
    · rw [hPass]
      exact .clean (hOk.next.advance x) hNot
    · rw [hStop] at hError ⊢
      exact .stop hFailing (by rw [hError, atError, hFailing.failed, if_pos rfl]) hNot
  · -- the missing length reads as -1, and adding 1 for the tag makes 0
    have hZero : sizeT (1 + (2 ^ 64 - 1)) = 0 := rfl
    rw [hZero, codecDecodeStateChk_pass (by omega)]
    obtain ⟨t, msg, hOk, rfl⟩ := hFailing
    refine .tag (by simp) ⟨[], .read t.pos, _, msg, rfl, rfl, ?_⟩ hCut
    exact List.mem_cons_self

/-- A bound check whose failure ends the branch. -/
theorem headErrors_chk {k : Nat} {v : Decoded}
    {next : CodecDecodeState → Step CodecDecodeState Decoded} (h : NoErrorYet s₁)
    (hError : codecSimpleCallError b s = atError (codecDecodeStateChk b s₁ k).1)
    (hNot : ¬ LenCut b s.pos) (hNext : HeadErrors b s (next s₁)) :
    HeadErrors b s (match codecDecodeStateChk b s₁ k with
      | (s₂, true) => .leaf s₂ v
      | (s₂, false) => next s₂) := by
  rcases h.chk (b := b) k with hPass | ⟨s₂, hFailing, hStop⟩
  · rw [hPass]
    exact hNext
  · rw [hStop] at hError ⊢
    exact .stop hFailing (by rw [hError, atError, hFailing.failed, if_pos rfl]) hNot

theorem headErrors_int {type : CodecValueType} (v : Decoded) (h : NoErrorYet s₁) (bd : UInt8)
    (hError : codecSimpleCallError b s = atError (codecSimpleReadn b s₁ (intWidth bd)).1)
    (hNot : ¬ LenCut b s.pos) : HeadErrors b s (codecSimpleDecodeInt b s₁ v bd type) := by
  have hRead := h.readn (b := b) (intWidth bd)
  rw [codecSimpleDecodeInt]
  exact headErrors_settled hRead hError hNot

theorem headErrors_bytes (v : Decoded) (h : NoErrorYet s₁) (bd : UInt8)
    (hError : codecSimpleCallError b s =
      if (codecSimpleDecodeLen b s₁ bd).1.failed then some (codecSimpleDecodeLen b s₁ bd).1
      else atError (codecDecodeStateChk b (codecSimpleDecodeLen b s₁ bd).1
        (codecSimpleDecodeLen b s₁ bd).2).1)
    (hNot : ¬ LenCut b s.pos) : HeadErrors b s (codecSimpleDecodeBytes b s₁ v bd) := by
  have hRead := h.decodeLen (b := b) bd
  rw [codecSimpleDecodeBytes]
  revert hError hRead
  rcases codecSimpleDecodeLen b s₁ bd with ⟨s₂, x⟩
  intro hError hRead
  dsimp only at hError hRead ⊢
  rcases hRead with hOk | hFailing
  · rw [hOk.failed, if_neg (by decide)] at hError ⊢
    exact headErrors_chk hOk hError hNot (.clean (hOk.advance x) hNot)
  · rw [hFailing.failed, if_pos rfl] at hError ⊢
    exact .stop hFailing hError hNot

theorem headErrors_map (hDesc : codecSimpleDesc (b.get s.pos) = some .map)
    (hLt : s.pos < b.len) (hClean : NoErrorYet s) :
    HeadErrors b s (codecSimpleDecodeMap b s.enter.next (b.get s.pos)) := by
  have hCases := decodeLen_cut (Or.inl rfl) hDesc hLt hClean
  rw [codecSimpleDecodeMap]
  revert hCases
  rcases codecSimpleDecodeLen b s.enter.next (b.get s.pos) with ⟨s₂, x⟩
  intro hCases
  dsimp only at hCases ⊢
  rcases hCases with ⟨hOk, hNot⟩ | ⟨hFailing, hCut, rfl, -⟩
  · exact .clean hOk hNot
  · exact .loop hFailing (by decide) hCut

theorem headErrors_array (v : Decoded) (hDesc : codecSimpleDesc (b.get s.pos) = some .array)
    (hLt : s.pos < b.len) (hClean : NoErrorYet s) :
    HeadErrors b s (codecSimpleDecodeArray b s.enter.next v (b.get s.pos)) := by
  have hError := codecSimpleCallError_of_lt hLt
  rw [codecSimpleSwitchError, hDesc] at hError
  have hNot : ¬ LenCut b s.pos := not_lenCut hDesc (by simp) (by simp)
  have hRead := hClean.enter.next.decodeLen (b := b) (b.get s.pos)
  rw [codecSimpleDecodeArray]
  revert hError hRead
  rcases codecSimpleDecodeLen b s.enter.next (b.get s.pos) with ⟨s₂, x⟩
  intro hError hRead
  dsimp only at hError hRead ⊢
  rcases hRead with hOk | hFailing
  · rw [hOk.failed, if_neg (by decide)]
    exact .clean hOk hNot
  · rw [hFailing.failed, if_pos rfl]
    exact .stop hFailing (by rw [hError, atError, hFailing.failed, if_pos rfl]) hNot

theorem headErrors_switch (v : Decoded) (hLt : s.pos < b.len) (hClean : NoErrorYet s) :
    HeadErrors b s (codecSimpleDecodeSwitch b s.enter.next v (b.get s.pos)) := by
  have hNext := hClean.enter.next
  have hError := codecSimpleCallError_of_lt hLt
  rw [codecSimpleDecodeSwitch]
  rw [codecSimpleSwitchError] at hError
  cases hDesc : codecSimpleDesc (b.get s.pos) with
  | none =>
    rw [hDesc] at hError
    exact .stop (hNext.fail _) hError (not_lenCut hDesc (by simp) (by simp))
  | some d =>
    rw [hDesc] at hError
    cases d with
    | map => exact headErrors_map hDesc hLt hClean
    | customExt => exact headErrors_ext hDesc hLt hClean
    | array => exact headErrors_array v hDesc hLt hClean
    | nil | «false» | «true» => exact .clean hNext (not_lenCut hDesc (by simp) (by simp))
    | posInt | negInt =>
      exact headErrors_int v hNext _ hError (not_lenCut hDesc (by simp) (by simp))
    | string | bytes =>
      exact headErrors_bytes _ hNext _ hError (not_lenCut hDesc (by simp) (by simp))
    | float32 =>
      have hNot := not_lenCut hDesc (by simp) (by simp)
      exact headErrors_chk hNext hError hNot (.clean ((hNext.touch 4).advance 4) hNot)
    | float64 =>
      have hNot := not_lenCut hDesc (by simp) (by simp)
      exact headErrors_chk hNext hError hNot (.clean ((hNext.touch 8).advance 8) hNot)

theorem headErrors (v : Decoded) (hClean : NoErrorYet s) :
    HeadErrors b s (codecSimpleDecodeHead b s v) := by
  rcases Nat.lt_or_ge s.pos b.len with hLt | hEnd
  · rw [codecSimpleDecodeHead_of_lt v hLt]
    exact headErrors_switch v hLt hClean
  · rw [codecSimpleDecodeHead_of_le v hEnd]
    refine .stop (hClean.enter.fail _) (codecSimpleCallError_of_le hEnd) ?_
    rintro ⟨hLt, -⟩
    omega

end Head

/-! ## The state of an error is the first failing one -/

section CallError

variable {b : Input} {s s₁ : CodecDecodeState}

theorem failing_of_atError (h : NoErrorYet s ∨ Failing s) (hError : atError s = some s₁) :
    Failing s₁ := by
  rcases h with hClean | hFailing
  · rw [atError, hClean.failed] at hError
    cases hError
  · rw [atError, hFailing.failed] at hError
    cases hError
    exact hFailing

theorem failing_of_chk (h : NoErrorYet s) {k : Nat}
    (hError : atError (codecDecodeStateChk b s k).1 = some s₁) : Failing s₁ := by
  apply failing_of_atError _ hError
  rcases h.chk (b := b) k with hPass | ⟨s₂, hFailing, hStop⟩
  · rw [hPass]
    exact Or.inl h
  · rw [hStop]
    exact Or.inr hFailing

theorem failing_of_len (h : NoErrorYet s) {bd : UInt8} {k : Nat → Nat}
    (hError : (if (codecSimpleDecodeLen b s bd).1.failed then some (codecSimpleDecodeLen b s bd).1
      else atError (codecDecodeStateChk b (codecSimpleDecodeLen b s bd).1
        (k (codecSimpleDecodeLen b s bd).2)).1) = some s₁) : Failing s₁ := by
  rcases h.decodeLen (b := b) bd with hOk | hFailing
  · rw [hOk.failed, if_neg (by decide)] at hError
    exact failing_of_chk hOk hError
  · rw [hFailing.failed, if_pos rfl] at hError
    cases hError
    exact hFailing

theorem failing_of_switchError (h : NoErrorYet s) {bd : UInt8}
    (hError : codecSimpleSwitchError b s bd = some s₁) : Failing s₁ := by
  rw [codecSimpleSwitchError] at hError
  split at hError
  · cases hError
  · cases hError
  · cases hError
  · exact failing_of_atError (h.readn _) hError
  · exact failing_of_atError (h.readn _) hError
  · exact failing_of_chk h hError
  · exact failing_of_chk h hError
  · exact failing_of_len (k := fun len => len) h hError
  · exact failing_of_len (k := fun len => len) h hError
  · exact failing_of_atError (h.decodeLen _) hError
  · exact failing_of_atError (h.decodeLen _) hError
  · exact failing_of_len (k := fun len => sizeT (1 + len)) h hError
  · cases hError
    exact h.fail _

theorem failing_of_callError (h : NoErrorYet s) (hError : codecSimpleCallError b s = some s₁) :
    Failing s₁ := by
  rcases Nat.lt_or_ge s.pos b.len with hLt | hEnd
  · rw [codecSimpleCallError_of_lt hLt] at hError
    exact failing_of_switchError h.enter.next hError
  · rw [codecSimpleCallError_of_le hEnd] at hError
    cases hError
    exact h.enter.fail _

theorem Unwound.not_goesOn (h : Unwound b s) : ¬ GoesOn s.trace := by
  obtain ⟨entry, s₁, rets, hEntry, hError, hRets, rfl⟩ := h
  obtain ⟨t, msg, hClean, rfl⟩ := failing_of_callError hEntry hError
  rintro ⟨newer, e, older, msg', hSplit, hNot, hFail⟩
  have hSplit : rets ++ .fail msg :: t.trace = newer ++ e :: older := hSplit
  rcases List.append_eq_append_iff.mp hSplit with ⟨mid, rfl, hMid⟩ | ⟨mid, rfl, hMid⟩
  · -- `e` is at the error or before it, where no error was set
    cases mid with
    | nil =>
      cases hMid
      exact hClean.trace msg' hFail
    | cons e' mid =>
      rw [List.cons_append] at hMid
      obtain ⟨-, hOlder⟩ := List.cons_eq_cons.mp hMid
      apply hClean.trace msg'
      rw [hOlder]
      exact List.mem_append_right _ (List.mem_cons_of_mem _ hFail)
  · cases mid with
    | nil =>
      cases hMid
      exact hClean.trace msg' hFail
    | cons e' mid =>
      obtain ⟨rfl, -⟩ := List.cons_eq_cons.mp hMid
      have hRet := hRets e (by simp)
      rw [hNot] at hRet
      cases hRet

end CallError

/-! ## Whole runs -/

section Run

variable {b : Input} {s s' : CodecDecodeState} {v : Decoded} {tr ev : List Event}

structure Fresh (b : Input) (s : CodecDecodeState) : Prop where
  inside : s.pos ≤ b.len
  clean : NoErrorYet s
  noCut : NoCallAt (LenCut b) s.trace

/-- A length was cut, and the run goes on in spite of the error. -/
structure Cut (b : Input) (s : CodecDecodeState) : Prop where
  inside : s.pos ≤ b.len
  err : s.err ≠ none
  error : ∃ msg, .fail msg ∈ s.trace
  cut : ¬ NoCallAt (LenCut b) s.trace

/-- The run has gone on after an error. -/
def Broken (b : Input) (s : CodecDecodeState) : Prop := Cut b s ∧ GoesOn s.trace

structure Stopped (b : Input) (s : CodecDecodeState) : Prop where
  err : s.err ≠ none
  unwound : Unwound b s
  noCut : NoCallAt (LenCut b) s.trace

theorem GoesOn.append (h : GoesOn tr) (ev : List Event) : GoesOn (ev ++ tr) := by
  obtain ⟨newer, e, older, msg, rfl, hRest⟩ := h
  exact ⟨ev ++ newer, e, older, msg, (List.append_assoc _ _ _).symm, hRest⟩

theorem GoesOn.error (h : GoesOn tr) : ∃ msg, .fail msg ∈ tr := by
  obtain ⟨newer, e, older, msg, rfl, -, hFail⟩ := h
  exact ⟨msg, List.mem_append_right _ (List.mem_cons_of_mem _ hFail)⟩

theorem Fresh.leave (h : Fresh b s') : Fresh b (s.leave s') where
  inside := h.inside
  clean := by
    refine ⟨h.clean.err, ?_⟩
    intro msg hMem
    rcases List.mem_cons.mp hMem with hEq | hMem
    · cases hEq
    · exact h.clean.trace msg hMem
  noCut := by
    rw [CodecDecodeState.leave_trace, noCallAt_ret]
    exact h.noCut

theorem Unwound.leave (h : Unwound b s') : Unwound b (s.leave s') := by
  obtain ⟨entry, s₁, rets, hEntry, hError, hRets, rfl⟩ := h
  refine ⟨entry, s₁, .ret s.pos s₁.pos s₁.failed :: rets, hEntry, hError, ?_, rfl⟩
  intro e he
  rcases List.mem_cons.mp he with rfl | he
  · rfl
  · exact hRets e he

theorem Stopped.leave (h : Stopped b s') : Stopped b (s.leave s') where
  err := h.err
  unwound := h.unwound.leave
  noCut := by
    rw [CodecDecodeState.leave_trace, noCallAt_ret]
    exact h.noCut

theorem Cut.leave (h : Cut b s') : Cut b (s.leave s') where
  inside := h.inside
  err := h.err
  error := h.error.imp fun msg hMem => List.mem_cons_of_mem _ hMem
  cut := by
    rw [CodecDecodeState.leave_trace, noCallAt_ret]
    exact h.cut

theorem Broken.leave (h : Broken b s') : Broken b (s.leave s') := ⟨h.1.leave, h.2.append [_]⟩

/-- A call that is entered after an error. -/
theorem Cut.head (h : Cut b s) : Broken b (codecSimpleDecodeHead b s v).state := by
  have hSpec := headSpec b s v h.inside
  obtain ⟨ev, hTrace, hQuiet, -⟩ := hSpec.trace
  obtain ⟨msg, hMem⟩ := h.error
  refine ⟨⟨hSpec.inside, fun hOk => h.err (hSpec.err hOk), ⟨msg, ?_⟩, ?_⟩,
    ⟨ev, .call s.pos s.failed, s.trace, msg, hTrace, rfl, hMem⟩⟩
  · rw [hTrace]
    exact List.mem_append_right _ (List.mem_cons_of_mem _ hMem)
  · rw [hTrace, hQuiet.noCallAt, noCallAt_call]
    exact fun hNo => h.cut hNo.2

theorem noCallAt_head (hInside : s.pos ≤ b.len) :
    NoCallAt (LenCut b) (codecSimpleDecodeHead b s v).state.trace ↔
      ¬ LenCut b s.pos ∧ NoCallAt (LenCut b) s.trace := by
  obtain ⟨ev, hTrace, hQuiet, -⟩ := (headSpec b s v hInside).trace
  rw [hTrace, hQuiet.noCallAt, noCallAt_call]

theorem phases (b : Input) : Phases (codecSimpleScheme b) (fun s => Fresh b s ∨ Cut b s)
    (fun s => Fresh b s ∨ Stopped b s ∨ Broken b s)
    (fun more s => Fresh b s ∨ Broken b s ∨ Cut b s ∧ more = true) where
  leaf := by
    intro s v s' v' h hHead
    have hHead : codecSimpleDecodeHead b s v = .leaf s' v' := hHead
    rcases h with h | h
    · have hErrors := headErrors (b := b) v h.clean
      have hInside := (headSpec b s v h.inside).inside
      have hCalls := noCallAt_head (v := v) h.inside
      rw [hHead] at hErrors hInside hCalls
      cases hErrors with
      | clean hClean hNot =>
        have hFresh : Fresh b s' := ⟨hInside, hClean, hCalls.mpr ⟨hNot, h.noCut⟩⟩
        exact Or.inl hFresh.leave
      | stop hFailing hError hNot =>
        have hStopped : Stopped b s' := by
          refine ⟨hFailing.err, ⟨s, s', [], h.clean, hError, ?_, rfl⟩, hCalls.mpr ⟨hNot, h.noCut⟩⟩
          intro e he
          cases he
        exact Or.inr (Or.inl hStopped.leave)
      | tag hErr hOn hCut =>
        have hBroken : Broken b s' :=
          ⟨⟨hInside, hErr, hOn.error, fun hNo => (hCalls.mp hNo).1 hCut⟩, hOn⟩
        exact Or.inr (Or.inr hBroken.leave)
    · have hBroken := h.head (v := v)
      rw [hHead] at hBroken
      exact Or.inr (Or.inr (Broken.leave hBroken))
  branch := by
    intro s v s' n l c h hHead
    have hHead : codecSimpleDecodeHead b s v = .branch s' n l c := hHead
    rcases h with h | h
    · have hErrors := headErrors (b := b) v h.clean
      have hInside := (headSpec b s v h.inside).inside
      have hCalls := noCallAt_head (v := v) h.inside
      rw [hHead] at hErrors hInside hCalls
      cases hErrors with
      | clean hClean hNot => exact Or.inl ⟨hInside, hClean, hCalls.mpr ⟨hNot, h.noCut⟩⟩
      | loop hFailing hMore hCut =>
        obtain ⟨t, msg, -, rfl⟩ := hFailing
        have hCutState : Cut b (t.fail msg) :=
          ⟨hInside, by simp, ⟨msg, List.mem_cons_self⟩, fun hNo => (hCalls.mp hNo).1 hCut⟩
        exact Or.inr (Or.inr ⟨hCutState, decide_eq_true hMore⟩)
    · have hBroken := h.head (v := v)
      rw [hHead] at hBroken
      exact Or.inr (Or.inl hBroken)
  live := by
    rintro s more (h | h | ⟨h, -⟩)
    · exact Or.inl h
    · exact Or.inr h.1
    · exact Or.inr h
  stop := by
    rintro s (h | h | ⟨-, h⟩)
    · exact Or.inl h
    · exact Or.inr (Or.inr h)
    · cases h
  next := by
    rintro s more (h | h | h) hOk
    · exact Or.inl h
    · exact absurd (s.failed_eq_false_iff.mp hOk) h.err
    · exact absurd (s.failed_eq_false_iff.mp hOk) h.1.err
  close := by
    rintro s s' (h | h | h)
    · exact Or.inl h.leave
    · exact Or.inr (Or.inl h.leave)
    · exact Or.inr (Or.inr h.leave)

end Run

/-- A run stops at the first error if and only if it enters no call at a map or an extension
whose length runs past the end. -/
theorem codecSimpleDecode_stopsAtError_iff (b : Input) (fuel : Nat) (v : Decoded) :
    StopsAtError b (codecSimpleDecode b fuel v) ↔
      NoCallAt (LenCut b) (codecSimpleDecode b fuel v).state.trace := by
  have hStart : Fresh b .init := by
    refine ⟨Nat.zero_le _, ⟨rfl, ?_⟩, by simp [CodecDecodeState.init]⟩
    intro msg hMem
    cases hMem
  have hRun := (phases b).node_ends fuel .init v (Or.inl hStart)
  unfold codecSimpleDecode codecSimpleDecodeR
  revert hRun
  cases node (codecSimpleScheme b) fuel .init v with
  | done s d =>
    rintro (h | h | h)
    · exact iff_of_true (fun hErr => absurd h.clean.err hErr) h.noCut
    · exact iff_of_true (fun _ => h.unwound) h.noCut
    · exact iff_of_false (fun hStops => (hStops h.1.err).not_goesOn h.2) h.1.cut
  | halt s =>
    rintro (h | h)
    · exact iff_of_true h.clean.err h.noCut
    · exact iff_of_false h.err h.cut

/-- The map of a length of two bytes, one of them there: it is read as an element, and refused, so
that nothing is stored in the map. The extension without a length: the byte behind the buffer is
read as its tag. -/
theorem not_stopsAtError_map :
    (¬ StopsAtError ⟨[0xF2, 0], fun _ => 0, by decide⟩
      (codecSimpleDecode ⟨[0xF2, 0], fun _ => 0, by decide⟩ 3 .zero)) ∧
    ¬ StopsAtError ⟨[0xF9], fun _ => 0, by decide⟩
      (codecSimpleDecode ⟨[0xF9], fun _ => 0, by decide⟩ 1 .zero) := by
  constructor
  · intro h
    have hUnwound : Unwound _ (codecSimpleDecode ⟨[0xF2, 0], fun _ => 0, by decide⟩ 3 .zero).state :=
      h (by decide)
    exact hUnwound.not_goesOn
      ⟨[.ret 0 2 true, .ret 1 2 true, .fail _], .read 1, _, _, rfl, rfl, .tail _ (.head _)⟩
  · intro h
    have hUnwound : Unwound _ (codecSimpleDecode ⟨[0xF9], fun _ => 0, by decide⟩ 1 .zero).state :=
      h (by decide)
    exact hUnwound.not_goesOn ⟨[.ret 0 1 true], .read 1, _, _, rfl, rfl, .head _⟩

end CcCommon.Codec.Simple
