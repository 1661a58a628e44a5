import CcCommon.Util.BufReader.Results

/-! # The stream behind a BufReader

How the bytes of a stream are cut into reads is no matter to `readfull`, and
neither are the interrupts and the blocked reads that it waits for. What it
gives is a prefix of one list of bytes, which is read off the outcomes of
`read(2)` without the buffer.
-/

namespace CcCommon.Util

set_option autoImplicit false

/-- The bytes up to the first outcome that `readfull` does not get over, with `k` retries. -/
def stream (continueOnInterrupt : Bool) : Nat → List ReadOutcome → List UInt8
  | _, [] => []
  | k, .error e _ :: rest =>
    if e = EINTR ∧ continueOnInterrupt then stream continueOnInterrupt k rest
    else if e = EAGAIN ∧ 0 < k then stream continueOnInterrupt (k - 1) rest
    else []
  | _, .bytes [] :: _ => []
  | k, .bytes (a :: bs) :: rest =>
    (a :: bs).take BufReader.bufsize_ ++ stream continueOnInterrupt k rest

namespace BufReader

/-- The bytes that a reader can still hand out, with `k` retries. -/
def pending (continueOnInterrupt : Bool) (k : Nat) (br : BufReader) (fd : ReadFd) : List UInt8 :=
  br.contents ++ if br.eof_ then [] else stream continueOnInterrupt k fd.outcomes

theorem contents_of_empty {br : BufReader} (hNone : br.r_ = br.w_) : br.contents = [] := by
  rw [contents, hNone]
  exact List.drop_of_length_le (List.length_take_le _ _)

theorem pending_of_empty {br : BufReader} (hEof : br.eof_ = false) (hNone : br.r_ = br.w_)
    (continueOnInterrupt : Bool) (k : Nat) (fd : ReadFd) :
    pending continueOnInterrupt k br fd = stream continueOnInterrupt k fd.outcomes := by
  rw [pending, contents_of_empty hNone, hEof, if_neg Bool.false_ne_true, List.nil_append]

theorem pending_of_eof {br : BufReader} (hValid : br.Valid) (hEof : br.eof_ = true)
    (continueOnInterrupt : Bool) (k : Nat) (fd : ReadFd) :
    pending continueOnInterrupt k br fd = [] := by
  rw [pending, contents_of_empty (hValid.emptied hEof), if_pos hEof, List.append_nil]

/-! ## One read -/

/-- How `fill` ends on an empty buffer, and what is left of the stream. -/
inductive Fetches (continueOnInterrupt : Bool) (outcomes : List ReadOutcome) (br : BufReader)
    (fd : ReadFd) : Bool → Prop where
  | gets (hEof : br.eof_ = false) (hSome : br.r_ < br.w_)
      (hStream : ∀ k, stream continueOnInterrupt k outcomes =
        br.contents ++ stream continueOnInterrupt k fd.outcomes) :
      Fetches continueOnInterrupt outcomes br fd true
  | blocks (hEof : br.eof_ = false) (hr : br.r_ = 0) (hw : br.w_ = 0) (hErrno : br.errno_ = EAGAIN)
      (hNone : stream continueOnInterrupt 0 outcomes = [])
      (hStream : ∀ k, stream continueOnInterrupt (k + 1) outcomes =
        stream continueOnInterrupt k fd.outcomes) :
      Fetches continueOnInterrupt outcomes br fd true
  | stops (ended : Bool) (hw : br.w_ = 0) (hWhy : br.eof_ = true ∨ br.errno_ ≠ EAGAIN ∨ ended = false)
      (hNone : ∀ k, stream continueOnInterrupt k outcomes = []) :
      Fetches continueOnInterrupt outcomes br fd ended

theorem fillLoop_fetches (br : BufReader) (hr : br.r_ = 0) (hw : br.w_ = 0) (hEof : br.eof_ = false)
    (continueOnInterrupt : Bool) (errno : Nat) (delivered : List UInt8)
    (outcomes : List ReadOutcome) :
    Fetches continueOnInterrupt outcomes
      (br.fillLoop continueOnInterrupt errno delivered outcomes).2.1
      (br.fillLoop continueOnInterrupt errno delivered outcomes).2.2
      (br.fillLoop continueOnInterrupt errno delivered outcomes).1 := by
  induction outcomes generalizing br errno with
  | nil => exact .stops false hw (.inr (.inr rfl)) fun k => rfl
  | cons outcome rest ih =>
    cases outcome with
    | error e hErrno =>
      rw [fillLoop]
      by_cases hAgain : e = EINTR ∧ continueOnInterrupt = true
      · have hSkip : ∀ k, stream continueOnInterrupt k (.error e hErrno :: rest) =
            stream continueOnInterrupt k rest := by
          intro k
          rw [stream, if_pos hAgain]
        rw [if_pos hAgain]
        have hRest := ih { br with errno_ := e } hr hw hEof e
        generalize fillLoop { br with errno_ := e } continueOnInterrupt e delivered rest = p at hRest ⊢
        obtain ⟨ended, br', fd'⟩ := p
        cases hRest with
        | gets hEof' hSome hStream => exact .gets hEof' hSome fun k => (hSkip k).trans (hStream k)
        | blocks hEof' hr' hw' hErrno' hNone hStream =>
          exact .blocks hEof' hr' hw' hErrno' ((hSkip 0).trans hNone) fun k =>
            (hSkip (k + 1)).trans (hStream k)
        | stops _ hw' hWhy hNone =>
          exact .stops _ hw' hWhy fun k => (hSkip k).trans (hNone k)
      · rw [if_neg hAgain]
        by_cases hBlocked : e = EAGAIN
        · refine .blocks hEof hr hw hBlocked ?_ ?_
          · rw [stream, if_neg hAgain, if_neg fun h => Nat.lt_irrefl 0 h.2]
          · intro k
            rw [stream, if_neg hAgain, if_pos ⟨hBlocked, Nat.succ_pos k⟩]
            rfl
        · refine .stops true hw (.inr (.inl hBlocked)) ?_
          intro k
          rw [stream, if_neg hAgain, if_neg fun h => hBlocked h.1]
    | bytes bs =>
      cases bs with
      | nil =>
        rw [fillLoop]
        simp only [List.take_nil, List.length_nil, if_true]
        exact .stops true hw (.inl rfl) fun k => by rw [stream]
      | cons a bs =>
        have hBytes : (a :: bs).take (bufsize_ - br.w_) = (a :: bs).take bufsize_ := by
          rw [hw, Nat.sub_zero]
        have hSome : ((a :: bs).take bufsize_).length ≠ 0 := by simp [bufsize_]
        rw [fillLoop, hBytes]
        dsimp only
        rw [if_neg hSome]
        refine .gets hEof ?_ ?_
        · dsimp only
          omega
        · intro k
          rw [stream]
          congr 1
          dsimp only [contents]
          rw [hw, hr, Lib.take_store (Nat.zero_le _)]
          rfl

/-- What a call of `readn` draws from what is pending. -/
inductive Draws (continueOnInterrupt : Bool) (br : BufReader) (fd : ReadFd) (br' : BufReader)
    (fd' : ReadFd) : Option (Int × Nat) → Prop where
  | gives (i : Int) (c : Nat) (hi : 0 < i)
      (hPending : ∀ k, pending continueOnInterrupt k br fd =
        br'.taken (some (i, c)) ++ pending continueOnInterrupt k br' fd') :
      Draws continueOnInterrupt br fd br' fd' (some (i, c))
  | blocks (i : Int) (c : Nat) (hi : i ≤ 0) (hEof : br'.eof_ = false) (hErrno : br'.errno_ = EAGAIN)
      (hNone : pending continueOnInterrupt 0 br fd = [])
      (hPending : ∀ k, pending continueOnInterrupt (k + 1) br fd =
        pending continueOnInterrupt k br' fd') :
      Draws continueOnInterrupt br fd br' fd' (some (i, c))
  | stops (i : Int) (c : Nat) (hi : i ≤ 0) (hWhy : br'.eof_ = true ∨ br'.errno_ ≠ EAGAIN)
      (hNone : ∀ k, pending continueOnInterrupt k br fd = []) :
      Draws continueOnInterrupt br fd br' fd' (some (i, c))
  | waits (hNone : ∀ k, pending continueOnInterrupt k br fd = []) :
      Draws continueOnInterrupt br fd br' fd' none

theorem give_draws {br br' : BufReader} (hValid : br'.Valid) (hSome : br'.r_ < br'.w_)
    {fd fd' : ReadFd} {n : Nat} (hn : 0 < n) {continueOnInterrupt : Bool}
    (hPending : ∀ k, pending continueOnInterrupt k br fd = pending continueOnInterrupt k br' fd') :
    Draws continueOnInterrupt br fd (br'.give fd' n).2.1 (br'.give fd' n).2.2
      (br'.give fd' n).1 := by
  have hk : (if n > br'.w_ - br'.r_ then br'.w_ - br'.r_ else n) ≤ br'.w_ - br'.r_ := by
    split <;> omega
  have hPos : 0 < (if n > br'.w_ - br'.r_ then br'.w_ - br'.r_ else n) := by
    split <;> omega
  rw [give]
  generalize (if n > br'.w_ - br'.r_ then br'.w_ - br'.r_ else n) = k at hk hPos
  refine .gives k br'.r_ (Int.natCast_pos.mpr hPos) ?_
  intro retries
  obtain ⟨-, got, hDelivered, hMoved⟩ := give_spec hValid fd' hk
  have hGot : got = [] := List.self_eq_append_right.mp hDelivered
  rw [hGot, List.append_nil] at hMoved
  rw [hPending, pending, hMoved, List.append_assoc]
  rfl

theorem readn_draws {br : BufReader} (hValid : br.Valid) (fd : ReadFd) {n : Nat} (hn : 0 < n)
    (continueOnInterrupt : Bool) :
    Draws continueOnInterrupt br fd (br.readn fd n continueOnInterrupt).2.1
      (br.readn fd n continueOnInterrupt).2.2 (br.readn fd n continueOnInterrupt).1 := by
  cases hEof : br.eof_ with
  | true =>
    rw [readn, if_pos hEof]
    exact .stops 0 0 (Int.le_refl 0) (.inl hEof) (pending_of_eof hValid hEof _ · fd)
  | false =>
    obtain hNone | hSome := hValid.ordered.eq_or_lt
    · have hPending := pending_of_empty hEof hNone continueOnInterrupt
      have hFetches := fillLoop_fetches { br with r_ := 0, w_ := 0 } rfl rfl hEof
        continueOnInterrupt fd.errno fd.delivered fd.outcomes
      have hAfter := (refill_spec hValid hEof hNone fd continueOnInterrupt).valid
      rw [readn_empty hEof hNone]
      rw [fill, if_neg (Int.not_lt.mpr hValid.opened), if_neg (by rw [hEof]; exact Bool.false_ne_true)]
        at hAfter ⊢
      generalize fillLoop { br with r_ := 0, w_ := 0 } continueOnInterrupt fd.errno fd.delivered
        fd.outcomes = p at hFetches hAfter ⊢
      obtain ⟨ended, br', fd'⟩ := p
      dsimp only at hFetches hAfter
      cases hFetches with
      | gets hEof' hSome hStream =>
        have hw : br'.w_ ≠ 0 := Nat.ne_zero_of_lt hSome
        dsimp only
        rw [if_neg hw]
        apply give_draws hAfter hSome hn
        intro k
        rw [hPending, hStream, pending, hEof', if_neg Bool.false_ne_true]
      | blocks hEof' hr hw hErrno hEnd hStream =>
        have hPending' := pending_of_empty hEof' (hr.trans hw.symm) continueOnInterrupt
        dsimp only
        rw [if_pos hw]
        refine .blocks _ 0 ?_ hEof' hErrno ((hPending 0 fd).trans hEnd) ?_
        · split <;> decide
        · intro k
          rw [hPending, hStream, hPending']
      | stops ended hw hWhy hEnd =>
        have hEnd' : ∀ k, pending continueOnInterrupt k br fd = [] :=
          fun k => (hPending k fd).trans (hEnd k)
        cases ended with
        | false => exact .waits hEnd'
        | true =>
          dsimp only
          rw [if_pos hw]
          refine .stops _ 0 ?_ ?_ hEnd'
          · split <;> decide
          · simpa using hWhy
    · rw [readn_buffered hEof hSome]
      exact give_draws hValid hSome hn fun k => rfl

/-! ## The loop of readfull -/

/-- From `r` bytes on, a call of `readfull` with `k` retries left gives what is pending, up to `n`
bytes. -/
structure Drains (continueOnInterrupt : Bool) (k : Nat) (br : BufReader) (fd : ReadFd) (n : Nat)
    (b : List UInt8) (r : Nat) (res : Full) : Prop where
  taken : res.b.take res.r = b.take r ++ (pending continueOnInterrupt k br fd).take (n - r)
  left : res.r = n → ∃ k' ≤ k, pending continueOnInterrupt k' res.br res.fd =
    (pending continueOnInterrupt k br fd).drop (n - r)

theorem readfullRound_drains {br : BufReader} (hValid : br.Valid) (fd : ReadFd) {b : List UInt8}
    {n r : Nat} (hRoom : n ≤ b.length) (hr : r < n) (continueOnInterrupt : Bool)
    (numRetriesOnBlock : Int) (bk : Nat) :
    match readfullRound br fd b n continueOnInterrupt numRetriesOnBlock r bk with
    | .leave res => res.b = b ∧ res.r = r ∧
        pending continueOnInterrupt (numRetriesOnBlock.toNat - bk) br fd = []
    | .again b' r' bk' br' fd' => bk ≤ bk' ∧ ∃ out, r' = r + out.length ∧ b'.take r' = b.take r ++ out ∧
        pending continueOnInterrupt (numRetriesOnBlock.toNat - bk) br fd =
          out ++ pending continueOnInterrupt (numRetriesOnBlock.toNat - bk') br' fd' := by
  have hDraws := readn_draws hValid fd (Nat.sub_pos_of_lt hr) continueOnInterrupt
  obtain ⟨-, hAtMost, hCounted⟩ := readn_spec hValid fd (n - r) continueOnInterrupt
  rw [readfullRound]
  generalize br.readn fd (n - r) continueOnInterrupt = p at hDraws hAtMost hCounted ⊢
  obtain ⟨res, br', fd'⟩ := p
  dsimp only at hDraws hAtMost hCounted
  cases hDraws with
  | waits hNone => exact ⟨rfl, rfl, hNone _⟩
  | gives i c hi hPending =>
    have hLength := hCounted i c rfl
    have hStored : (Lib.store b r (br'.taken (some (i, c)))).take (r + i.toNat) =
        b.take r ++ br'.taken (some (i, c)) := by
      rw [← hLength]
      apply Lib.take_store
      omega
    dsimp only
    rw [if_neg (Int.not_le.mpr hi)]
    exact ⟨Nat.le_refl bk, br'.taken (some (i, c)), by rw [hLength], hStored, hPending _⟩
  | blocks i c hi hEof hErrno hNone hPending =>
    dsimp only
    rw [if_pos hi, if_neg (by rw [hEof]; exact Bool.false_ne_true)]
    by_cases hRetry : (bk : Int) < numRetriesOnBlock
    · have hLeft : numRetriesOnBlock.toNat - bk = numRetriesOnBlock.toNat - (bk + 1) + 1 := by omega
      rw [if_pos ⟨hRetry, .inl hErrno⟩]
      refine ⟨Nat.le_succ bk, [], rfl, (List.append_nil _).symm, ?_⟩
      rw [hLeft, hPending]
      rfl
    · have hLeft : numRetriesOnBlock.toNat - bk = 0 := by omega
      rw [if_neg fun h => hRetry h.1, hLeft]
      exact ⟨rfl, rfl, hNone⟩
  | stops i c hi hWhy hNone =>
    dsimp only
    rw [if_pos hi]
    cases hEof : br'.eof_ with
    | true => exact ⟨rfl, rfl, hNone _⟩
    | false =>
      have hOther : ¬ ((bk : Int) < numRetriesOnBlock ∧
          (br'.errno_ = EAGAIN ∨ br'.errno_ = EWOULDBLOCK)) := by
        rintro ⟨-, hErrno⟩
        have hAgain : br'.errno_ = EAGAIN := hErrno.elim id id
        cases hWhy with
        | inl hEnd => exact Bool.false_ne_true (hEof.symm.trans hEnd)
        | inr hErrno' => exact hErrno' hAgain
      rw [if_neg Bool.false_ne_true, if_neg hOther]
      exact ⟨rfl, rfl, hNone _⟩

theorem readfullLoop_drains (continueOnInterrupt : Bool) (n : Nat) (numRetriesOnBlock : Int)
    (b : List UInt8) (r bk : Nat) (br : BufReader) (fd : ReadFd) (hValid : br.Valid)
    (hRoom : n ≤ b.length) (hr : r ≤ n) :
    Drains continueOnInterrupt (numRetriesOnBlock.toNat - bk) br fd n b r
      (readfullLoop continueOnInterrupt n numRetriesOnBlock b r bk br fd) := by
  fun_induction readfullLoop continueOnInterrupt n numRetriesOnBlock b r bk br fd with
  | case1 b r bk br fd hMore res hRound =>
    have hDrains := readfullRound_drains hValid fd hRoom hMore continueOnInterrupt
      numRetriesOnBlock bk
    rw [hRound] at hDrains
    obtain ⟨hb, hSame, hNone⟩ := hDrains
    constructor
    · rw [hb, hSame, hNone, List.take_nil, List.append_nil]
    · intro hFull
      omega
  | case2 b r bk br fd hMore b' r' bk' br' fd' hRound ih =>
    have hDrains := readfullRound_drains hValid fd hRoom hMore continueOnInterrupt
      numRetriesOnBlock bk
    have hSpec := readfullRound_spec hValid fd hRoom hr continueOnInterrupt numRetriesOnBlock bk
    rw [hRound] at hDrains hSpec
    obtain ⟨hRetries, out, hr', hTake, hPending⟩ := hDrains
    obtain ⟨_, hMoves, -⟩ := hSpec.moves
    have hBounded := hSpec.bounded
    obtain ⟨hTaken, hLeft⟩ := ih hMoves.valid (hRoom.trans hSpec.sized.ge) hBounded
    have hRest : n - r = out.length + (n - r') := by omega
    constructor
    · rw [hTaken, hTake, hPending, hRest, List.take_length_add_append, List.append_assoc]
    · intro hFull
      obtain ⟨k', hk', hAfter⟩ := hLeft hFull
      refine ⟨k', by omega, ?_⟩
      rw [hAfter, hPending, hRest, List.drop_length_add_append]
  | case3 b r bk br fd hEnough =>
    have hDone : n - r = 0 := by omega
    constructor
    · rw [hDone, List.take_zero, List.append_nil]
    · exact fun _ => ⟨_, Nat.le_refl _, by rw [hDone, List.drop_zero]⟩

end BufReader

/-- In every reachable state `readfull` gives the first `n` bytes of what is in the buffer and of
the stream behind it, or all there are, however the stream is cut into reads; and when it gives
`n`, what follows them is still to be had. -/
theorem readfull_stream {s : Reading} (h : reading.Reachable s) {b : List UInt8} {n : Nat}
    (hRoom : n ≤ b.length) (continueOnInterrupt : Bool) (numRetriesOnBlock : Int) :
    let res := s.br.readfull s.fd b n continueOnInterrupt numRetriesOnBlock
    let pending := s.br.pending continueOnInterrupt numRetriesOnBlock.toNat s.fd
    res.b.take res.r = pending.take n ∧ res.r = min n pending.length ∧
      (res.r = n → ∃ k ≤ numRetriesOnBlock.toNat,
        res.br.pending continueOnInterrupt k res.fd = pending.drop n) := by
  have hValid := (Reading.reachable_inv h).valid
  obtain ⟨hTaken, hLeft⟩ := BufReader.readfullLoop_drains continueOnInterrupt n numRetriesOnBlock b 0 0
    s.br s.fd hValid hRoom (Nat.zero_le n)
  obtain ⟨hBounded, hSized, -⟩ :=
    BufReader.readfull_spec hValid s.fd hRoom continueOnInterrupt numRetriesOnBlock
  rw [List.take_zero, List.nil_append, ← BufReader.readfull] at hTaken
  have hLength := congrArg List.length hTaken
  rw [List.length_take_of_le (by omega), List.length_take] at hLength
  exact ⟨hTaken, hLength, hLeft⟩

theorem EINTR_pos : 0 < EINTR := by decide

/-- Four bytes in two reads, with an interrupt and a blocked read between them. -/
def cutReading : Reading :=
  freshReading [.bytes [7], .error EINTR EINTR_pos, .error EAGAIN (by decide), .bytes [8, 9, 10]]

theorem readfull_stream_cut :
    let res := cutReading.br.readfull cutReading.fd [0, 0, 0] 3 true 1
    res.b.take res.r = [7, 8, 9] :=
  (readfull_stream ⟨_, [], freshReading_fresh _, rfl⟩ (by decide) true 1).1

end CcCommon.Util
