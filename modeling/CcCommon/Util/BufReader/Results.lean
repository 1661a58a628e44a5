import CcCommon.Util.BufReader

/-! # The results of BufReader

`fill` copies the thread's `errno` after every `read(2)`, also after one that
did not fail. So what `readn` makes of an empty buffer depends on the last
`read(2)` that failed, however long ago.
-/

namespace CcCommon.Util

set_option autoImplicit false

/-! ## What a call has read -/

/-- The last `read(2)` between the two states failed. -/
def LastFailed (fd fd' : ReadFd) : Prop :=
  ∃ done e hErrno, fd.outcomes = done ++ ReadOutcome.error e hErrno :: fd'.outcomes

/-- One of the `read(2)` between the two states was at the end of the file. -/
def EndReached (fd fd' : ReadFd) : Prop :=
  ∃ done, fd.outcomes = done ++ fd'.outcomes ∧ ReadOutcome.bytes [] ∈ done

/-- The bytes that `readn` can hand out: those that it finds and those that it reads. -/
def Available (br : BufReader) (fd fd' : ReadFd) : Prop :=
  br.r_ < br.w_ ∨ fd.delivered.length < fd'.delivered.length

/-- The `read(2)` that ends `fill` is at the end of the file, and `errno` is set at that time. -/
def endsWithErrno (continueOnInterrupt : Bool) : Nat → List ReadOutcome → Bool
  | _, [] => false
  | _, .error e _ :: rest =>
    if e = EINTR ∧ continueOnInterrupt then endsWithErrno continueOnInterrupt e rest else false
  | errno, .bytes bs :: _ => bs.isEmpty && errno ≠ 0

/-- How `fill` ends on an empty buffer: it waits, or its last `read(2)` failed, was at the end of
the file, or delivered bytes. -/
inductive Fills (outcomes : List ReadOutcome) (delivered : List UInt8) (stale : Bool)
    (br : BufReader) (fd : ReadFd) : Bool → Prop where
  | waits (done : List ReadOutcome) (hDone : outcomes = done ++ fd.outcomes)
      (hOpen : ReadOutcome.bytes [] ∉ done) (hEof : br.eof_ = false) (hStale : stale = false) :
      Fills outcomes delivered stale br fd false
  | fails (done : List ReadOutcome) (e : Nat) (hErrno : 0 < e)
      (hDone : outcomes = done ++ .error e hErrno :: fd.outcomes)
      (hOpen : ReadOutcome.bytes [] ∉ done) (hEof : br.eof_ = false) (hNone : br.w_ = 0)
      (hCopied : br.errno_ = e) (hSame : fd.delivered = delivered) (hStale : stale = false) :
      Fills outcomes delivered stale br fd true
  | ends (done : List ReadOutcome) (hDone : outcomes = done ++ .bytes [] :: fd.outcomes)
      (hEof : br.eof_ = true) (hNone : br.w_ = 0) (hSame : fd.delivered = delivered)
      (hStale : stale = decide (br.errno_ ≠ 0)) : Fills outcomes delivered stale br fd true
  | gets (done : List ReadOutcome) (bs : List UInt8)
      (hDone : outcomes = done ++ .bytes bs :: fd.outcomes) (hBytes : bs ≠ [])
      (hOpen : ReadOutcome.bytes [] ∉ done) (hEof : br.eof_ = false) (hSome : br.r_ < br.w_)
      (hStale : stale = false) : Fills outcomes delivered stale br fd true

/-- A `read(2)` that is interrupted before the others does not change how `fill` ends. -/
theorem Fills.interrupted {outcomes : List ReadOutcome} {delivered : List UInt8} {stale : Bool}
    {br : BufReader} {fd : ReadFd} {ended : Bool} {e : Nat} (hErrno : 0 < e)
    (h : Fills outcomes delivered stale br fd ended) :
    Fills (.error e hErrno :: outcomes) delivered stale br fd ended := by
  have hCons : ∀ {done : List ReadOutcome}, ReadOutcome.bytes [] ∉ done →
      ReadOutcome.bytes [] ∉ .error e hErrno :: done := by
    intro done hOpen hMem
    cases hMem with
    | tail _ hMem => exact hOpen hMem
  cases h with
  | waits done hDone hOpen hEof hStale =>
    exact .waits (_ :: done) (congrArg _ hDone) (hCons hOpen) hEof hStale
  | fails done e' hErrno' hDone hOpen hEof hNone hCopied hSame hStale =>
    exact .fails (_ :: done) e' hErrno' (congrArg _ hDone) (hCons hOpen) hEof hNone hCopied hSame
      hStale
  | ends done hDone hEof hNone hSame hStale =>
    exact .ends (_ :: done) (congrArg _ hDone) hEof hNone hSame hStale
  | gets done bs hDone hBytes hOpen hEof hSome hStale =>
    exact .gets (_ :: done) bs (congrArg _ hDone) hBytes (hCons hOpen) hEof hSome hStale

namespace BufReader

theorem fillLoop_fills (br : BufReader) (hr : br.r_ = 0) (hw : br.w_ = 0) (hEof : br.eof_ = false)
    (continueOnInterrupt : Bool) (errno : Nat) (delivered : List UInt8)
    (outcomes : List ReadOutcome) :
    Fills outcomes delivered (endsWithErrno continueOnInterrupt errno outcomes)
      (br.fillLoop continueOnInterrupt errno delivered outcomes).2.1
      (br.fillLoop continueOnInterrupt errno delivered outcomes).2.2
      (br.fillLoop continueOnInterrupt errno delivered outcomes).1 := by
  induction outcomes generalizing br errno with
  | nil => exact .waits [] rfl List.not_mem_nil hEof rfl
  | cons outcome rest ih =>
    cases outcome with
    | error e hErrno =>
      rw [fillLoop, endsWithErrno]
      split
      · exact (ih { br with errno_ := e } hr hw hEof e).interrupted hErrno
      · exact .fails [] e hErrno rfl List.not_mem_nil hEof hw rfl rfl rfl
    | bytes bs =>
      rw [fillLoop, endsWithErrno]
      cases bs with
      | nil =>
        simp only [List.take_nil, List.length_nil, if_true]
        exact .ends [] rfl rfl hw (List.append_nil delivered) (Bool.true_and _)
      | cons a bs =>
        have hSome : ((a :: bs).take (bufsize_ - br.w_)).length ≠ 0 := by
          rw [hw]
          simp [bufsize_]
        dsimp only
        rw [if_neg hSome]
        have hLess : br.r_ < br.w_ + ((a :: bs).take (bufsize_ - br.w_)).length := by omega
        exact .gets [] (a :: bs) rfl (List.cons_ne_nil a bs) List.not_mem_nil hEof hLess rfl

theorem fill_fills {br : BufReader} (hOpened : 0 ≤ br.fd_) (hEof : br.eof_ = false) (fd : ReadFd)
    (continueOnInterrupt : Bool) :
    Fills fd.outcomes fd.delivered (endsWithErrno continueOnInterrupt fd.errno fd.outcomes)
      (fill { br with r_ := 0, w_ := 0 } fd continueOnInterrupt).2.1
      (fill { br with r_ := 0, w_ := 0 } fd continueOnInterrupt).2.2
      (fill { br with r_ := 0, w_ := 0 } fd continueOnInterrupt).1 := by
  rw [fill, if_neg (Int.not_lt.mpr hOpened), if_neg (by rw [hEof]; exact Bool.false_ne_true)]
  exact fillLoop_fills { br with r_ := 0, w_ := 0 } rfl rfl hEof continueOnInterrupt fd.errno fd.delivered fd.outcomes

end BufReader

/-! ## What is known of the reads of a call -/

theorem lastFailed_iff {fd fd' : ReadFd} {done : List ReadOutcome} {o : ReadOutcome}
    (h : fd.outcomes = done ++ o :: fd'.outcomes) :
    LastFailed fd fd' ↔ ∃ e hErrno, o = .error e hErrno := by
  constructor
  · rintro ⟨done', e, hErrno, h'⟩
    have hBoth : (done ++ [o]) ++ fd'.outcomes = (done' ++ [.error e hErrno]) ++ fd'.outcomes := by
      simpa using h.symm.trans h'
    have hSame : done ++ [o] = done' ++ [.error e hErrno] := List.append_cancel_right hBoth
    exact ⟨e, hErrno, (List.append_singleton_inj.mp hSame).2⟩
  · rintro ⟨e, hErrno, rfl⟩
    exact ⟨done, e, hErrno, h⟩

theorem not_lastFailed_self (fd : ReadFd) : ¬ LastFailed fd fd := by
  rintro ⟨done, e, hErrno, h⟩
  have hLength := congrArg List.length h
  simp at hLength
  omega

theorem LastFailed.of_append {fd fd' fd'' : ReadFd} {done : List ReadOutcome}
    (h : LastFailed fd' fd'') (hDone : fd.outcomes = done ++ fd'.outcomes) : LastFailed fd fd'' := by
  obtain ⟨done', e, hErrno, h'⟩ := h
  exact ⟨done ++ done', e, hErrno, by rw [hDone, h', List.append_assoc]⟩

/-- `eof_` is set by a `read(2)` at the end of the file, and by nothing else. -/
def Seen (br : BufReader) (fd : ReadFd) (br' : BufReader) (fd' : ReadFd) : Prop :=
  ∃ done, fd.outcomes = done ++ fd'.outcomes ∧
    (br'.eof_ = true ↔ br.eof_ = true ∨ ReadOutcome.bytes [] ∈ done)

theorem Seen.of_eof {br br' : BufReader} (h : br'.eof_ = br.eof_) (fd : ReadFd) :
    Seen br fd br' fd := ⟨[], rfl, by simp [h]⟩

theorem Seen.trans {br br' br'' : BufReader} {fd fd' fd'' : ReadFd} (h : Seen br fd br' fd')
    (h' : Seen br' fd' br'' fd'') : Seen br fd br'' fd'' := by
  obtain ⟨done, hDone, hEof⟩ := h
  obtain ⟨done', hDone', hEof'⟩ := h'
  refine ⟨done ++ done', ?_, ?_⟩
  · rw [hDone, hDone', List.append_assoc]
  · rw [hEof', hEof, List.mem_append, or_assoc]

theorem Fills.seen {br br' : BufReader} {fd fd' : ReadFd} {stale ended : Bool}
    (h : Fills fd.outcomes fd.delivered stale br' fd' ended) (hEof : br.eof_ = false) :
    Seen br fd br' fd' := by
  cases h with
  | waits done hDone hOpen hEof' hStale => exact ⟨done, hDone, by simp [hEof, hEof', hOpen]⟩
  | fails done e hErrno hDone hOpen hEof' hNone hCopied hSame hStale =>
    exact ⟨done ++ [_], by simpa using hDone, by simp [hEof, hEof', hOpen]⟩
  | ends done hDone hEof' hNone hSame hStale =>
    exact ⟨done ++ [_], by simpa using hDone, by simp [hEof']⟩
  | gets done bs hDone hBytes hOpen hEof' hSome hStale =>
    exact ⟨done ++ [_], by simpa using hDone, by simp [hEof, hEof', hOpen, hBytes.symm]⟩

/-- What the result of `readn` says, where `stale` stands for a copied `errno` that no `read(2)`
of the call has set. -/
structure Classifies (br : BufReader) (fd : ReadFd) (stale : Bool) (i : Int) (br' : BufReader)
    (fd' : ReadFd) : Prop where
  shape : 0 < i ∨ i = 0 ∨ i = -1
  available : Available br fd fd' → 0 < i
  zero : i = 0 ↔ br'.eof_ = true ∧ stale = false
  failed : i = -1 ↔ LastFailed fd fd' ∨ stale = true
  stale : stale = true → br'.eof_ = true ∧ ¬ LastFailed fd fd'

namespace BufReader

/-- The call reads at the end of the file while `errno` is set. -/
def stale (br : BufReader) (fd : ReadFd) (continueOnInterrupt : Bool) : Bool :=
  !br.eof_ && br.r_ = br.w_ && endsWithErrno continueOnInterrupt fd.errno fd.outcomes

/-- The end of `readn`, which hands out bytes of the buffer. -/
def give (br : BufReader) (fd : ReadFd) (n : Nat) : Option (Int × Nat) × BufReader × ReadFd :=
  let n := if n > br.w_ - br.r_ then br.w_ - br.r_ else n
  (some (n, br.r_), { br with r_ := br.r_ + n }, fd)

theorem readn_buffered {br : BufReader} (hEof : br.eof_ = false) (hSome : br.r_ < br.w_)
    (fd : ReadFd) (n : Nat) (continueOnInterrupt : Bool) :
    br.readn fd n continueOnInterrupt = br.give fd n := by
  have hw : br.w_ ≠ 0 := Nat.ne_zero_of_lt hSome
  simp [readn, give, hEof, hSome.ne, hw]

theorem readn_empty {br : BufReader} (hEof : br.eof_ = false) (hNone : br.r_ = br.w_)
    (fd : ReadFd) (n : Nat) (continueOnInterrupt : Bool) :
    br.readn fd n continueOnInterrupt =
      match fill { br with r_ := 0, w_ := 0 } fd continueOnInterrupt with
      | (false, br, fd) => (none, br, fd)
      | (true, br, fd) =>
        if br.w_ = 0 then (some (if br.errno_ ≠ 0 then -1 else 0, 0), br, fd) else br.give fd n := by
  rw [readn, hEof, if_neg Bool.false_ne_true, if_pos hNone]
  obtain ⟨_ | _, br', fd'⟩ := fill { br with r_ := 0, w_ := 0, eof_ := false } fd continueOnInterrupt
  · rfl
  · rfl

theorem give_eq (br : BufReader) (fd : ReadFd) {n : Nat} (hSome : br.r_ < br.w_) :
    ∃ k c : Nat, (0 < n → 0 < k) ∧
      br.give fd n = (some ((k : Int), c), { br with r_ := br.r_ + k }, fd) := by
  refine ⟨if n > br.w_ - br.r_ then br.w_ - br.r_ else n, br.r_, ?_, rfl⟩
  intro hn
  split <;> omega

end BufReader

namespace Classifies

variable {br br' : BufReader} {fd fd' : ReadFd}

theorem of_pos {k : Nat} (hk : 0 < k) (hEof : br'.eof_ = false) (hLast : ¬ LastFailed fd fd') :
    Classifies br fd false k br' fd' where
  shape := .inl (Int.natCast_pos.mpr hk)
  available := fun _ => Int.natCast_pos.mpr hk
  zero := by
    rw [hEof]
    simp [hk.ne']
  failed := by
    simp only [hLast, Bool.false_eq_true, or_self, iff_false]
    omega
  stale := fun h => absurd h Bool.false_ne_true

theorem of_eof (hEof : br'.eof_ = true) (hNone : ¬ Available br fd fd')
    (hLast : ¬ LastFailed fd fd') (stale : Bool) :
    Classifies br fd stale (if stale then -1 else 0) br' fd' where
  shape := by cases stale <;> decide
  available := fun h => absurd h hNone
  zero := by cases stale <;> simp [hEof]
  failed := by cases stale <;> simp [hLast]
  stale := fun _ => ⟨hEof, hLast⟩

theorem of_failed (hEof : br'.eof_ = false) (hNone : ¬ Available br fd fd')
    (hLast : LastFailed fd fd') : Classifies br fd false (-1) br' fd' where
  shape := .inr (.inr rfl)
  available := fun h => absurd h hNone
  zero := by simp [hEof]
  failed := by simp [hLast]
  stale := fun h => absurd h Bool.false_ne_true

end Classifies

/-- What a call of `readn` has seen, and what its result says. -/
def Answers (br : BufReader) (fd : ReadFd) (n : Nat) (stale : Bool) :
    Option (Int × Nat) × BufReader × ReadFd → Prop
  | (res, br', fd') => Seen br fd br' fd' ∧ (stale = true → res.isSome = true) ∧
      ∀ i c, 0 < n → res = some (i, c) → Classifies br fd stale i br' fd'

theorem Answers.give {br br' : BufReader} {fd fd' : ReadFd} (hSeen : Seen br fd br' fd')
    (hEof : br'.eof_ = false) (hSome : br'.r_ < br'.w_) (hLast : ¬ LastFailed fd fd') (n : Nat) :
    Answers br fd n false (br'.give fd' n) := by
  obtain ⟨k, c, hk, hGive⟩ := br'.give_eq fd' hSome
  rw [hGive]
  refine ⟨hSeen.trans (Seen.of_eof rfl fd'), fun _ => rfl, ?_⟩
  rintro _ _ hn ⟨⟩
  exact .of_pos (hk hn) hEof hLast

theorem Fills.answers {br br' : BufReader} {fd fd' : ReadFd} {stale ended : Bool}
    (h : Fills fd.outcomes fd.delivered stale br' fd' ended) (hEof : br.eof_ = false)
    (hNone : br.r_ = br.w_) (n : Nat) :
    Answers br fd n stale (match (ended, br', fd') with
      | (false, br, fd) => (none, br, fd)
      | (true, br, fd) =>
        if br.w_ = 0 then (some (if br.errno_ ≠ 0 then -1 else 0, 0), br, fd)
        else br.give fd n) := by
  have hSeen := h.seen hEof
  have hUnread : fd'.delivered = fd.delivered → ¬ Available br fd fd' := by
    rintro hSame (hBuffer | hRead)
    · exact hBuffer.ne hNone
    · rw [hSame] at hRead
      exact lt_irrefl _ hRead
  cases h with
  | waits done hDone hOpen hEof' hStale =>
    refine ⟨hSeen, fun h => absurd (hStale.symm.trans h) Bool.false_ne_true, ?_⟩
    rintro _ _ _ ⟨⟩
  | fails done e hErrno hDone hOpen hEof' hw hCopied hSame hStale =>
    dsimp only
    rw [if_pos hw, hCopied, if_pos hErrno.ne', hStale]
    refine ⟨hSeen, fun _ => rfl, ?_⟩
    rintro _ _ _ ⟨⟩
    exact .of_failed hEof' (hUnread hSame) ⟨done, e, hErrno, hDone⟩
  | ends done hDone hEof' hw hSame hStale =>
    dsimp only
    rw [if_pos hw]
    refine ⟨hSeen, fun _ => rfl, ?_⟩
    rintro _ _ _ ⟨⟩
    have hLast : ¬ LastFailed fd fd' := by simp [lastFailed_iff hDone]
    have hEnd := Classifies.of_eof hEof' (hUnread hSame) hLast stale
    rw [hStale] at hEnd ⊢
    simpa using hEnd
  | gets done bs hDone hBytes hOpen hEof' hSome hStale =>
    have hw : br'.w_ ≠ 0 := Nat.ne_zero_of_lt hSome
    dsimp only
    rw [if_neg hw, hStale]
    exact .give hSeen hEof' hSome (by simp [lastFailed_iff hDone]) n

theorem BufReader.readn_answers {br : BufReader} (hValid : br.Valid) (fd : ReadFd) (n : Nat)
    (continueOnInterrupt : Bool) :
    Answers br fd n (br.stale fd continueOnInterrupt) (br.readn fd n continueOnInterrupt) := by
  cases hEof : br.eof_ with
  | true =>
    have hNone : ¬ Available br fd fd := by
      rintro (hBuffer | hRead)
      · exact hBuffer.ne (hValid.emptied hEof)
      · exact lt_irrefl _ hRead
    rw [BufReader.readn, if_pos hEof, BufReader.stale, hEof]
    refine ⟨Seen.of_eof rfl fd, fun _ => rfl, ?_⟩
    rintro _ _ _ ⟨⟩
    exact .of_eof hEof hNone (not_lastFailed_self fd) false
  | false =>
    rcases hValid.ordered.eq_or_lt with hNone | hSome
    · have hStale : br.stale fd continueOnInterrupt =
          endsWithErrno continueOnInterrupt fd.errno fd.outcomes := by
        simp [BufReader.stale, hEof, hNone]
      rw [BufReader.readn_empty hEof hNone, hStale]
      exact (BufReader.fill_fills hValid.opened hEof fd continueOnInterrupt).answers hEof hNone n
    · have hStale : br.stale fd continueOnInterrupt = false := by
        simp [BufReader.stale, hSome.ne]
      rw [BufReader.readn_buffered hEof hSome, hStale]
      exact .give (Seen.of_eof rfl fd) hEof hSome (not_lastFailed_self fd) n

/-! ## readfull -/

namespace BufReader

/-- What a call of `readfull` that gives `res` has seen, and why it falls short. -/
structure FallsShort (br : BufReader) (fd : ReadFd) (n : Nat) (res : Full) : Prop where
  seen : Seen br fd res.br res.fd
  short : res.ended = true → res.r < n → res.br.eof_ = true ∨ LastFailed fd res.fd

theorem FallsShort.trans {br br' : BufReader} {fd fd' : ReadFd} {n : Nat} {res : Full}
    (hSeen : Seen br fd br' fd') (h : FallsShort br' fd' n res) : FallsShort br fd n res := by
  refine ⟨hSeen.trans h.seen, ?_⟩
  intro hEnded hShort
  obtain ⟨done, hDone, -⟩ := hSeen
  exact (h.short hEnded hShort).imp_right fun hLast => hLast.of_append hDone

theorem readfullRound_short {br : BufReader} (hValid : br.Valid) (fd : ReadFd) (b : List UInt8)
    {n r : Nat} (hr : r < n) (continueOnInterrupt : Bool) (numRetriesOnBlock : Int) (bk : Nat) :
    match readfullRound br fd b n continueOnInterrupt numRetriesOnBlock r bk with
    | .leave res => FallsShort br fd n res
    | .again _ _ _ br' fd' => Seen br fd br' fd' := by
  have hAnswers := readn_answers hValid fd (n - r) continueOnInterrupt
  rw [readfullRound]
  generalize br.readn fd (n - r) continueOnInterrupt = p at hAnswers ⊢
  obtain ⟨_ | ⟨i, c⟩, br', fd'⟩ := p
  · refine ⟨hAnswers.1, ?_⟩
    rintro ⟨⟩
  · obtain ⟨hSeen, -, hResult⟩ := hAnswers
    have hClassifies := hResult i c (Nat.sub_pos_of_lt hr) rfl
    have hShort : i ≤ 0 → br'.eof_ ≠ true → LastFailed fd fd' := by
      intro hi hEof
      rcases hClassifies.shape with hPos | hZero | hFailed
      · omega
      · exact absurd (hClassifies.zero.mp hZero).1 hEof
      · rcases hClassifies.failed.mp hFailed with hLast | hStale
        · exact hLast
        · exact absurd (hClassifies.stale hStale).1 hEof
    dsimp only
    by_cases hi : i ≤ 0
    · rw [if_pos hi]
      by_cases hEof : br'.eof_ = true
      · rw [if_pos hEof]
        exact ⟨hSeen, fun _ _ => .inl hEof⟩
      · rw [if_neg hEof]
        by_cases hRetry : (bk : Int) < numRetriesOnBlock ∧
            (br'.errno_ = EAGAIN ∨ br'.errno_ = EWOULDBLOCK)
        · rw [if_pos hRetry]
          exact hSeen.trans (Seen.of_eof rfl fd')
        · rw [if_neg hRetry]
          exact ⟨hSeen, fun _ _ => .inr (hShort hi hEof)⟩
    · rw [if_neg hi]
      exact hSeen

theorem readfullLoop_short (continueOnInterrupt : Bool) (n : Nat) (numRetriesOnBlock : Int)
    (b : List UInt8) (r bk : Nat) (br : BufReader) (fd : ReadFd) (hValid : br.Valid)
    (hRoom : n ≤ b.length) (hr : r ≤ n) :
    FallsShort br fd n (readfullLoop continueOnInterrupt n numRetriesOnBlock b r bk br fd) := by
  fun_induction readfullLoop continueOnInterrupt n numRetriesOnBlock b r bk br fd with
  | case1 b r bk br fd hMore res hRound =>
    have hShort := readfullRound_short hValid fd b hMore continueOnInterrupt numRetriesOnBlock bk
    rw [hRound] at hShort
    exact hShort
  | case2 b r bk br fd hMore b' r' bk' br' fd' hRound ih =>
    have hSeen := readfullRound_short hValid fd b hMore continueOnInterrupt numRetriesOnBlock bk
    have hSpec := readfullRound_spec hValid fd hRoom hr continueOnInterrupt numRetriesOnBlock bk
    rw [hRound] at hSeen hSpec
    obtain ⟨out, hMoves, hTake⟩ := hSpec.moves
    exact FallsShort.trans hSeen (ih hMoves.valid (hRoom.trans hSpec.sized.ge) hSpec.bounded)
  | case3 b r bk br fd hEnough => exact ⟨Seen.of_eof rfl fd, fun _ hShort => absurd hShort hEnough⟩

end BufReader

/-! ## Every history of calls -/

/-- What the call returns tells the end of the file, which is looked for from `start` on, from an
error. -/
def Reading.Reports (start : ReadFd) (s : Reading) : BufReaderCall → Prop
  | .readn n continueOnInterrupt => 0 < n → ∀ i c br fd,
      s.br.readn s.fd n continueOnInterrupt = (some (i, c), br, fd) →
      (Available s.br s.fd fd → 0 < i) ∧ (i = 0 ↔ EndReached start fd) ∧
        (i = -1 ↔ LastFailed s.fd fd)
  | .readfull b n continueOnInterrupt numRetriesOnBlock _ =>
      let res := s.br.readfull s.fd b n continueOnInterrupt numRetriesOnBlock
      res.ended = true → res.r < n → res.br.eof_ = true ∨ LastFailed s.fd res.fd

/-- The call is no `readn` that comes to the end of the file while `errno` is set. -/
def Reading.Clean (s : Reading) : BufReaderCall → Prop
  | .readn n continueOnInterrupt => 0 < n → s.br.stale s.fd continueOnInterrupt = false
  | .readfull .. => True

namespace Reading

theorem call_seen {s : Reading} (h : s.Inv) (c : BufReaderCall) :
    Seen s.br s.fd (s.call c).br (s.call c).fd := by
  cases c with
  | readn n continueOnInterrupt =>
    exact (BufReader.readn_answers h.valid s.fd n continueOnInterrupt).1
  | readfull b n continueOnInterrupt numRetriesOnBlock hRoom =>
    exact (BufReader.readfullLoop_short continueOnInterrupt n numRetriesOnBlock b 0 0 s.br s.fd
      h.valid hRoom (Nat.zero_le n)).seen

theorem step_some {s t : Reading} {c : BufReaderCall} (h : reading.step s c = some t) :
    s.call c = t := by
  simp only [reading] at h
  split at h
  · cases h
  · exact Option.some.inj h

theorem Fresh.seen {s t : Reading} {calls : List BufReaderCall} (h : s.Fresh)
    (hRun : reading.run s calls = some t) : t.Inv ∧ Seen s.br s.fd t.br t.fd := by
  apply Lib.Machine.run_induct (I := fun t => t.Inv ∧ Seen s.br s.fd t.br t.fd) _ _ hRun
  · rintro u c u' ⟨hInv, hSeen⟩ hStep
    obtain rfl := step_some hStep
    exact ⟨hInv.call c, hSeen.trans (call_seen hInv c)⟩
  · exact ⟨h.inv, Seen.of_eof rfl s.fd⟩

/-- `eof_` says that a `read(2)` of the history was at the end of the file. -/
theorem endReached_iff {s : Reading} {br : BufReader} {fd : ReadFd} (h : s.Fresh)
    (hSeen : Seen s.br s.fd br fd) : EndReached s.fd fd ↔ br.eof_ = true := by
  obtain ⟨done, hDone, hEof⟩ := hSeen
  rw [hEof, h.eof_]
  simp only [Bool.false_eq_true, false_or]
  constructor
  · rintro ⟨done', hDone', hMem⟩
    rw [hDone] at hDone'
    rwa [List.append_cancel_right hDone']
  · exact fun hMem => ⟨done, hDone, hMem⟩

theorem reports_iff_clean {s t : Reading} (h : s.Fresh) (hInv : t.Inv)
    (hSeen : Seen s.br s.fd t.br t.fd) (c : BufReaderCall) :
    t.Reports s.fd c ↔ t.Clean c := by
  cases c with
  | readn n continueOnInterrupt =>
    have hAnswers := BufReader.readn_answers hInv.valid t.fd n continueOnInterrupt
    simp only [Reports, Clean]
    generalize t.br.readn t.fd n continueOnInterrupt = p at hAnswers ⊢
    obtain ⟨res, br, fd⟩ := p
    obtain ⟨hAfter, hReturns, hResult⟩ := hAnswers
    constructor
    · intro hReports hn
      by_contra hStale
      rw [Bool.not_eq_false] at hStale
      obtain ⟨⟨i, c⟩, rfl⟩ := Option.isSome_iff_exists.mp (hReturns hStale)
      have hClassifies := hResult i c hn rfl
      obtain ⟨-, -, hFailed⟩ := hReports hn i c br fd rfl
      exact (hClassifies.stale hStale).2 (hFailed.mp (hClassifies.failed.mpr (.inr hStale)))
    · rintro hClean hn i c _ _ ⟨⟩
      have hClassifies := hResult i c hn rfl
      refine ⟨hClassifies.available, ?_, ?_⟩
      · rw [hClassifies.zero, endReached_iff h (hSeen.trans hAfter), hClean hn]
        simp
      · rw [hClassifies.failed, hClean hn]
        simp
  | readfull b n continueOnInterrupt numRetriesOnBlock hRoom =>
    simp only [Reports, Clean, iff_true]
    exact (BufReader.readfullLoop_short continueOnInterrupt n numRetriesOnBlock b 0 0 t.br t.fd
      hInv.valid hRoom (Nat.zero_le n)).short

end Reading

instance Reading.Clean.decidable (s : Reading) : ∀ c, Decidable (s.Clean c)
  | .readn n continueOnInterrupt =>
    inferInstanceAs (Decidable (0 < n → s.br.stale s.fd continueOnInterrupt = false))
  | .readfull .. => isTrue trivial

/-- In every history of calls, those that tell the end of the file from an error are the calls that
do not come to the end of the file while `errno` is set. -/
theorem bufReader_reports_iff {s : Reading} (h : s.Fresh) (calls : List BufReaderCall) :
    reading.EachStep (Reading.Reports s.fd) s calls ↔ reading.EachStep Reading.Clean s calls := by
  apply Lib.Machine.EachStep.congr
  intro done t ht c
  obtain ⟨hInv, hSeen⟩ := h.seen ht
  exact Reading.reports_iff_clean h hInv hSeen c

/-- A reader on descriptor 3, with nothing read and `errno` not set. -/
def freshReading (outcomes : List ReadOutcome) : Reading :=
  ⟨⟨List.replicate BufReader.bufsize_ 0, 3, 0, 0, 0, false⟩, ⟨outcomes, 0, []⟩, [], false⟩

theorem freshReading_fresh (outcomes : List ReadOutcome) : (freshReading outcomes).Fresh :=
  ⟨by simp [freshReading], rfl, rfl, rfl, rfl, List.length_replicate, rfl, rfl, rfl⟩

theorem bufReader_reports_iff_ended :
    reading.EachStep (Reading.Reports (freshReading [.bytes [7], .bytes []]).fd)
      (freshReading [.bytes [7], .bytes []]) [.readn 2 true, .readn 2 true] :=
  (bufReader_reports_iff (freshReading_fresh _) _).mpr (by decide)

/-- The first `read(2)` finds nothing yet, and the next is at the end of the file. -/
theorem not_reports_blocked :
    ¬ ∀ s calls, s.Fresh → reading.EachStep (Reading.Reports s.fd) s calls := by
  intro h
  have hCalls := h (freshReading [.error EAGAIN (by decide), .bytes []])
    [.readn 1 false, .readn 1 false] (freshReading_fresh _)
  have hSecond := hCalls [.readn 1 false] (.readn 1 false) (List.prefix_refl _) _ rfl
  obtain ⟨-, hZero, -⟩ := hSecond (by decide) (-1) 0 _ _ rfl
  have hReached := hZero.mpr ⟨[_, _], rfl, List.mem_cons_of_mem _ (List.mem_singleton_self _)⟩
  exact absurd hReached (by decide)

end CcCommon.Util
