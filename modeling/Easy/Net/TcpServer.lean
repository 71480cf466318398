import Mathlib.Data.List.Basic

/-!
`TcpServer::bind` (`easy/net/TcpServer.cc`).

`bind` appends the addresses that fail to a vector of its caller's, and takes the vector being
empty for success. So a caller that tries again with the same vector, as the loop around `bind`
does, is told that it has failed although every address is bound by then, and the sockets that
are bound are dropped.
-/

namespace Easy.Net

variable {α σ : Type}

/-- An address, the socket that is made for it, and what `Socket::bind` and `listen` return. -/
structure BindAttempt (α σ : Type) where
  addr : α
  sock : σ
  bound : Bool
  listening : Bool

/-- The address is bound, and its socket listens. -/
def BindAttempt.Ok (t : BindAttempt α σ) : Prop := t.bound ∧ t.listening

instance (t : BindAttempt α σ) : Decidable t.Ok := inferInstanceAs (Decidable (_ ∧ _))

/-- `socks_` of a server. -/
structure TcpServer (σ : Type) where
  socks : List σ
  deriving DecidableEq, Repr

namespace TcpServer

variable {s : TcpServer σ} {fails : List α} {attempts : List (BindAttempt α σ)}

/-- The loop over the addresses. -/
def bindLoop (socks : List σ) (fails : List α) : List (BindAttempt α σ) → List σ × List α
  | [] => (socks, fails)
  | t :: attempts =>
    if !t.bound then bindLoop socks (fails ++ [t.addr]) attempts
    else if !t.listening then bindLoop socks (fails ++ [t.addr]) attempts
    else bindLoop (socks ++ [t.sock]) fails attempts

/-- `bind`: what it returns, the vector of its caller's, and the server. -/
def bind (s : TcpServer σ) (attempts : List (BindAttempt α σ)) (fails : List α) :
    Bool × List α × TcpServer σ :=
  let (socks, fails) := bindLoop s.socks fails attempts
  if !fails.isEmpty then (false, fails, ⟨[]⟩) else (true, fails, ⟨socks⟩)

/-- `while (!bind(addrs, fails)) { sleep(2); }`, with the outcomes of each round: whether the
loop ends in one of them. -/
def retry (s : TcpServer σ) (fails : List α) : List (List (BindAttempt α σ)) → Bool
  | [] => false
  | attempts :: rounds =>
    let (bound, fails, s) := s.bind attempts fails
    if bound then true else retry s fails rounds

/-! ### One call -/

/-- The sockets that listen, and the addresses that have failed, in order. -/
theorem bindLoop_eq (socks : List σ) (fails : List α) (attempts : List (BindAttempt α σ)) :
    bindLoop socks fails attempts =
      (socks ++ (attempts.filter (·.Ok)).map (·.sock),
        fails ++ (attempts.filter (¬·.Ok)).map (·.addr)) := by
  induction attempts generalizing socks fails with
  | nil => simp [bindLoop]
  | cons t attempts ih =>
      rw [bindLoop, ih, ih]
      cases hbound : t.bound with
      | false => simp [BindAttempt.Ok, hbound]
      | true =>
          cases hlistening : t.listening with
          | false => simp [BindAttempt.Ok, hbound, hlistening]
          | true => simp [BindAttempt.Ok, hbound, hlistening]

theorem failed_eq_nil : (attempts.filter (¬·.Ok)).map (·.addr) = [] ↔ ∀ t ∈ attempts, t.Ok := by
  simp [List.filter_eq_nil_iff]

/-- **`bind`** succeeds if no address fails and none is in the vector. -/
theorem bind_eq (s : TcpServer σ) (attempts : List (BindAttempt α σ)) (fails : List α) :
    s.bind attempts fails =
      if fails = [] ∧ ∀ t ∈ attempts, t.Ok then (true, [], ⟨s.socks ++ attempts.map (·.sock)⟩)
      else (false, fails ++ (attempts.filter (¬·.Ok)).map (·.addr), ⟨[]⟩) := by
  have hnil : fails ++ (attempts.filter (¬·.Ok)).map (·.addr) = [] ↔
      fails = [] ∧ ∀ t ∈ attempts, t.Ok := by
    rw [List.append_eq_nil_iff, failed_eq_nil]
  simp only [bind, bindLoop_eq, Bool.not_eq_true', List.isEmpty_eq_false_iff, ne_eq, hnil]
  by_cases h : fails = [] ∧ ∀ t ∈ attempts, t.Ok
  · have hall : attempts.filter (·.Ok) = attempts := by
      rw [List.filter_eq_self]
      exact fun t ht => by simpa using h.2 t ht
    rw [if_neg (not_not.mpr h), if_pos h, hall, hnil.mpr h]
  · rw [if_pos h, if_neg h]

/-- What a call should tell its caller. -/
structure Reports (s : TcpServer σ) (attempts : List (BindAttempt α σ)) (fails : List α)
    (r : Bool × List α × TcpServer σ) : Prop where
  true_iff : r.1 = true ↔ ∀ t ∈ attempts, t.Ok
  socks : r.1 = true → (attempts.map (·.sock)).Sublist r.2.2.socks
  gained : r.1 = false → r.2.1 = fails ++ (attempts.filter (¬·.Ok)).map (·.addr)

/-- **Reports** are right if the vector is empty before the call or some address fails in it. -/
theorem reports_bind_iff (s : TcpServer σ) (attempts : List (BindAttempt α σ)) (fails : List α) :
    Reports s attempts fails (s.bind attempts fails) ↔
      fails = [] ∨ ∃ t ∈ attempts, ¬t.Ok := by
  rw [bind_eq]
  split
  case isTrue h =>
    refine iff_of_true ⟨iff_of_true rfl h.2, fun _ => ?_, fun hfalse => ?_⟩ (.inl h.1)
    · exact List.sublist_append_right ..
    · cases hfalse
  case isFalse h =>
    constructor
    · intro hreports
      by_contra hnone
      have hok : ∀ t ∈ attempts, t.Ok := by simpa using (not_or.mp hnone).2
      cases hreports.true_iff.mpr hok
    · intro hsome
      have hnot : ¬∀ t ∈ attempts, t.Ok := by
        rcases hsome with hnil | ⟨t, ht, hfail⟩
        · exact fun hok => h ⟨hnil, hok⟩
        · exact fun hok => hfail (hok t ht)
      exact ⟨iff_of_false (by simp) hnot, fun htrue => (by cases htrue), fun _ => rfl⟩

/-! ### The loop around it -/

/-- Once an address is in the vector no call succeeds. -/
theorem retry_of_ne_nil (rounds : List (List (BindAttempt α σ))) (s : TcpServer σ)
    (h : fails ≠ []) : s.retry fails rounds = false := by
  induction rounds generalizing s fails with
  | nil => rfl
  | cons attempts rounds ih =>
      rw [retry, bind_eq, if_neg fun hnil => h hnil.1]
      exact ih _ (by simp [h])

/-- **A caller that tries again** with the same vector ends in the first round or in none. -/
theorem retry_iff (s : TcpServer σ) (attempts : List (BindAttempt α σ))
    (rounds : List (List (BindAttempt α σ))) :
    s.retry [] (attempts :: rounds) = true ↔ ∀ t ∈ attempts, t.Ok := by
  rw [retry, bind_eq]
  by_cases hok : ∀ t ∈ attempts, t.Ok
  · rw [if_pos ⟨rfl, hok⟩]
    exact iff_of_true rfl hok
  · have hfailed : (attempts.filter (¬·.Ok)).map (·.addr) ≠ [] := fun h =>
      hok (failed_eq_nil.mp h)
    rw [if_neg fun h => hok h.2]
    refine iff_of_false (fun h => ?_) hok
    have hstuck := retry_of_ne_nil rounds ⟨[]⟩ hfailed
    exact absurd h (by simpa using hstuck)

/-- The second round of a loop, in which the address can be bound. -/
theorem reports_bind_false :
    ¬Reports (⟨[]⟩ : TcpServer ℕ) [⟨12345, 7, true, true⟩] [12345]
      ((⟨[]⟩ : TcpServer ℕ).bind [⟨12345, 7, true, true⟩] [12345]) := by
  intro h
  have htrue := h.true_iff.mpr (by decide)
  exact absurd htrue (by decide)

end TcpServer

end Easy.Net
