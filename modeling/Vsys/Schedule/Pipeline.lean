import Mathlib.Data.List.Basic

/-! A connection on which a client may send requests before earlier ones are
answered. The server takes them in order, computes one reply at a time and sends
it later; the k-th reply answers the k-th request. -/

namespace Schedule

/-- The two directions of a connection, with one reply computed for each request
the server has taken. -/
structure Pipeline (α β : Type*) where
  script : List α
  inbox : List α
  served : List α
  pending : Option β
  outbox : List β
  received : List β
  served_length : served.length = (received ++ outbox ++ pending.toList).length

namespace Pipeline

variable {α β : Type*}

def start (script : List α) : Pipeline α β where
  script := script
  inbox := []
  served := []
  pending := none
  outbox := []
  received := []
  served_length := rfl

def sent (p : Pipeline α β) : List α := p.served ++ p.inbox

def replies (p : Pipeline α β) : List β := p.received ++ p.outbox ++ p.pending.toList

/-- Each request answered or to be answered, with its reply. -/
def exchanges (p : Pipeline α β) : List (α × β) := p.served.zip p.replies

def heard (p : Pipeline α β) : List (α × β) := p.served.zip p.received

def next (p : Pipeline α β) : Option α :=
  match p.pending with
  | none => p.inbox.head?
  | some _ => none

def send (p : Pipeline α β) : Option (Pipeline α β) :=
  match p.script with
  | [] => none
  | a :: as => some { p with script := as, inbox := p.inbox ++ [a] }

def answer (p : Pipeline α β) (b : β) : Option (Pipeline α β) :=
  match hp : p.pending, p.inbox with
  | none, a :: as => some
    { p with
      inbox := as
      served := p.served ++ [a]
      pending := some b
      served_length := by
        have h := p.served_length
        simp only [hp, List.length_append, List.length_singleton, Option.toList_none,
          Option.toList_some, List.length_nil] at h ⊢
        omega }
  | _, _ => none

def flush (p : Pipeline α β) : Option (Pipeline α β) :=
  match hp : p.pending with
  | none => none
  | some b => some
    { p with
      pending := none
      outbox := p.outbox ++ [b]
      served_length := by
        have h := p.served_length
        simp only [hp, List.length_append, List.length_singleton, Option.toList_none,
          Option.toList_some, List.length_nil] at h ⊢
        omega }

def receive (p : Pipeline α β) : Option (Pipeline α β) :=
  match ho : p.outbox with
  | [] => none
  | b :: bs => some
    { p with
      outbox := bs
      received := p.received ++ [b]
      served_length := by
        have h := p.served_length
        simp only [ho, List.length_append, List.length_cons, List.length_nil] at h ⊢
        omega }

@[simp] theorem start_exchanges (script : List α) :
    (start script : Pipeline α β).exchanges = [] := rfl

@[simp] theorem start_sent (script : List α) : (start script : Pipeline α β).sent = [] := rfl

theorem zip_prefix_zip {xs : List α} {ys zs : List β} (h : ys <+: zs) :
    xs.zip ys <+: xs.zip zs := by
  induction xs generalizing ys zs with
  | nil => simp
  | cons x xs ih =>
    cases ys with
    | nil => simp
    | cons y ys =>
      obtain ⟨t, rfl⟩ := h
      exact List.cons_prefix_cons.mpr ⟨rfl, ih (List.prefix_append ys t)⟩

theorem append_zip_of_length_le {xs ys : List α} {zs : List β} (h : zs.length ≤ xs.length) :
    (xs ++ ys).zip zs = xs.zip zs := by
  induction xs generalizing zs with
  | nil =>
    have hnil : zs = [] := List.length_eq_zero_iff.mp (Nat.le_zero.mp h)
    rw [hnil, List.zip_nil_right, List.zip_nil_right]
  | cons x xs ih =>
    cases zs with
    | nil => rfl
    | cons z zs => simp only [List.cons_append, List.zip_cons_cons, ih (by simpa using h)]

theorem exchanges_map_fst (p : Pipeline α β) : p.exchanges.map Prod.fst = p.served :=
  List.map_fst_zip (Nat.le_of_eq p.served_length)

theorem received_length_le (p : Pipeline α β) : p.received.length ≤ p.served.length := by
  have h := p.served_length
  simp only [List.length_append] at h
  omega

theorem heard_prefix (p : Pipeline α β) : p.heard <+: p.exchanges :=
  zip_prefix_zip (by simp only [replies, List.append_assoc, List.prefix_append])

theorem send_spec {p q : Pipeline α β} (h : p.send = some q) :
    (∃ a, p.script.head? = some a ∧ q.sent = p.sent ++ [a]) ∧
      q.exchanges = p.exchanges ∧ q.heard = p.heard := by
  rw [send] at h
  split at h
  · cases h
  · next a as hs =>
    cases h
    exact ⟨⟨a, by rw [hs, List.head?_cons], (List.append_assoc _ _ _).symm⟩, rfl, rfl⟩

theorem answer_spec {p q : Pipeline α β} {b : β} (h : p.answer b = some q) :
    ∃ a, p.next = some a ∧ q.exchanges = p.exchanges ++ [(a, b)] ∧ q.sent = p.sent ∧
      q.heard = p.heard := by
  rw [answer] at h
  split at h
  · next a as hp hi =>
    cases h
    have hl := p.served_length
    have he : p.exchanges = p.served.zip (p.received ++ p.outbox) := by
      rw [exchanges, replies, hp, Option.toList_none, List.append_nil]
    rw [hp, Option.toList_none, List.append_nil] at hl
    refine ⟨a, by rw [next, hp, hi, List.head?_cons], ?_, ?_, ?_⟩
    · rw [he, exchanges, replies, Option.toList_some, List.zip_append hl]
      rfl
    · rw [sent, sent, hi, List.append_assoc, List.singleton_append]
    · exact append_zip_of_length_le p.received_length_le
  · cases h

theorem flush_spec {p q : Pipeline α β} (h : p.flush = some q) :
    q.exchanges = p.exchanges ∧ q.sent = p.sent ∧ q.heard = p.heard := by
  rw [flush] at h
  split at h
  · cases h
  · next b hp =>
    cases h
    refine ⟨?_, rfl, rfl⟩
    simp only [exchanges, replies, hp, Option.toList_none, Option.toList_some, List.append_nil,
      List.append_assoc]

theorem receive_spec {p q : Pipeline α β} (h : p.receive = some q) :
    q.exchanges = p.exchanges ∧ q.sent = p.sent ∧ p.heard <+: q.heard := by
  rw [receive] at h
  split at h
  · cases h
  · next b bs ho =>
    cases h
    refine ⟨?_, rfl, zip_prefix_zip (List.prefix_append _ _)⟩
    simp only [exchanges, replies, ho, List.append_assoc, List.singleton_append]

end Pipeline

end Schedule
