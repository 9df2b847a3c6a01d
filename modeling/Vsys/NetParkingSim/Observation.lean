import Vsys.NetParkingSim.RequestStream
import Vsys.Text.Delimiter

/-! Requests that an observer is told of before they are handled, and the log that
the observer of a session writes. -/

namespace Vsys.NetParkingSim

structure RequestObserver (ω : Type*) where
  onFree : ω → ω
  onIn : ω → ω
  onOut : ω → ω
  onQuit : ω → ω
  onUnknown : Text → ω → ω

variable {σ ω : Type*}

/-- The observer is told first; it has been told also where the handler exits. -/
def observed (hook : ω → ω) (handle : σ → Handled σ) (s : ω × σ) : Handled (ω × σ) :=
  let seen := hook s.1
  let r := handle s.2
  ⟨r.out, (seen, r.state), r.exited⟩

namespace RequestObservingDecorator

variable (handler : RequestHandler σ) (observer : RequestObserver ω)

def handleFree : ω × σ → Handled (ω × σ) := observed observer.onFree handler.handleFree

def handleIn : ω × σ → Handled (ω × σ) := observed observer.onIn handler.handleIn

def handleOut : ω × σ → Handled (ω × σ) := observed observer.onOut handler.handleOut

def handleQuit : ω × σ → Handled (ω × σ) := observed observer.onQuit handler.handleQuit

def handleUnknown (data : Text) : ω × σ → Handled (ω × σ) :=
  observed (observer.onUnknown data) (handler.handleUnknown data)

end RequestObservingDecorator

def requestObservingDecorator (handler : RequestHandler σ) (observer : RequestObserver ω) :
    RequestHandler (ω × σ) where
  handleFree := RequestObservingDecorator.handleFree handler observer
  handleIn := RequestObservingDecorator.handleIn handler observer
  handleOut := RequestObservingDecorator.handleOut handler observer
  handleQuit := RequestObservingDecorator.handleQuit handler observer
  handleUnknown := RequestObservingDecorator.handleUnknown handler observer

/-- An address with the text that `toString` gives for it, host name and number; neither
has a line break or a blank in it. -/
@[ext]
structure InetAddress where
  text : Text
  plain : Plain text
  solid : ' ' ∉ text

@[ext]
structure RequestLoggingObserver where
  clientAddr : InetAddress
  clientPort : Int32

namespace RequestLoggingObserver

variable (o : RequestLoggingObserver)

def client : Text := o.clientAddr.text ++ ":".toList ++ (toString o.clientPort).toList

def onReq (req : Text) (log : Text) : Text :=
  log ++ println ("Received '".toList ++ req ++ "' request from: ".toList ++ o.client)

def onFree : Text → Text := o.onReq "free".toList

def onIn : Text → Text := o.onReq "in".toList

def onOut : Text → Text := o.onReq "out".toList

def onQuit : Text → Text := o.onReq "quit".toList

def onUnknown (data : Text) (log : Text) : Text :=
  log ++ println ("Received unknown request from: ".toList ++ o.client ++ " [DATA: ".toList ++
    data ++ "]".toList)

def hooks : RequestObserver Text where
  onFree := o.onFree
  onIn := o.onIn
  onOut := o.onOut
  onQuit := o.onQuit
  onUnknown := o.onUnknown

end RequestLoggingObserver

/-- The handler that a session gives to its dispatcher. -/
def ServerSession.handler (o : RequestLoggingObserver) :
    RequestHandler (Text × SynchronizedParkingLot) :=
  requestObservingDecorator parkingLotRequestHandler o.hooks

namespace RequestDispatcher

variable (handler : RequestHandler σ) (observer : RequestObserver ω)

def notify (line : Text) (w : ω) : ω :=
  match kind line with
  | .free => observer.onFree w
  | .in_ => observer.onIn w
  | .out => observer.onOut w
  | .quit => observer.onQuit w
  | .unknown => observer.onUnknown line w

/-- The lines that are handled before the process exits. -/
def handledLines : List Text → σ → List Text
  | [], _ => []
  | line :: rest, s =>
    let r := dispatch handler line s
    line :: if r.exited then [] else handledLines rest r.state

theorem dispatch_observed (line : Text) (w : ω) (s : σ) :
    let r := dispatch handler line s
    dispatch (requestObservingDecorator handler observer) line (w, s) =
      ⟨r.out, (notify observer line w, r.state), r.exited⟩ := by
  simp only [dispatch, notify]
  cases kind line <;> rfl

/-- What an observer is told of does not change what is handled, and how. -/
theorem serveAll_observed (ls : List Text) (w : ω) (s : σ) :
    let r := serveAll handler ls s
    serveAll (requestObservingDecorator handler observer) ls (w, s) =
      ⟨r.out, ((handledLines handler ls s).foldl (fun w line => notify observer line w) w, r.state),
        r.exited⟩ := by
  induction ls generalizing w s with
  | nil => rfl
  | cons line rest ih =>
    have hline := dispatch_observed handler observer line w s
    cases hexited : (dispatch handler line s).exited with
    | true =>
      simp only [serveAll, handledLines, Handled.andThen, hline, hexited, if_true,
        List.foldl_cons, List.foldl_nil]
    | false =>
      simp only [serveAll, handledLines, Handled.andThen, hline, hexited, Bool.false_eq_true,
        if_false, ih, List.foldl_cons]

end RequestDispatcher

open RequestDispatcher

/-- The lines up to the first `quit`, which is handled as well. -/
def upToQuit : List Text → List Text
  | [] => []
  | line :: rest => line :: if line = quitLine then [] else upToQuit rest

theorem upToQuit_sublist (ls : List Text) : (upToQuit ls).Sublist ls := by
  induction ls with
  | nil => exact List.Sublist.slnil
  | cons line rest ih =>
    rw [upToQuit]
    split
    · exact List.Sublist.cons_cons line (List.nil_sublist rest)
    · exact List.Sublist.cons_cons line ih

theorem ParkingLotRequestHandler.exited_iff {line : Text} {l : SynchronizedParkingLot} :
    (dispatch parkingLotRequestHandler line l).exited = true ↔ line = quitLine := by
  constructor
  · intro h
    by_contra hne
    rw [dispatch_exited hne l] at h
    exact Bool.false_ne_true h
  · rintro rfl
    rfl

theorem handledLines_eq (ls : List Text) (l : SynchronizedParkingLot) :
    handledLines parkingLotRequestHandler ls l = upToQuit ls := by
  induction ls generalizing l with
  | nil => rfl
  | cons line rest ih => simp only [handledLines, upToQuit, ParkingLotRequestHandler.exited_iff, ih]

namespace RequestLoggingObserver

variable (o : RequestLoggingObserver)

/-- The log entry of a request line: a command by its name, anything else in full. -/
def entry (line : Text) : Text :=
  if line ∈ commands then "Received '".toList ++ line ++ "' request from: ".toList ++ o.client
  else
    "Received unknown request from: ".toList ++ o.client ++ " [DATA: ".toList ++ line ++
      "]".toList

theorem notify_hooks (line log : Text) :
    notify o.hooks line log = log ++ println (o.entry line) := by
  by_cases hline : line ∈ commands
  · rw [entry, if_pos hline]
    simp only [commands, List.mem_cons, List.not_mem_nil, or_false] at hline
    rcases hline with rfl | rfl | rfl | rfl <;> rfl
  · rw [entry, if_neg hline, notify, kind_of_not_mem hline]
    rfl

theorem foldl_notify (ls : List Text) (log : Text) :
    ls.foldl (fun log line => notify o.hooks line log) log =
      log ++ (ls.map o.entry).flatMap println := by
  induction ls generalizing log with
  | nil => simp
  | cons line rest ih =>
    rw [List.foldl_cons, notify_hooks, ih, List.map_cons, List.flatMap_cons, List.append_assoc]

theorem client_plain : Plain o.client := by
  have hcolon : Plain ":".toList := by decide
  exact ParkingLotRequestHandler.plain_append
    (ParkingLotRequestHandler.plain_append o.clientAddr.plain hcolon)
    (ParkingLotRequestHandler.plain_toString o.clientPort)

theorem entry_plain {line : Text} (h : Plain line) : Plain (o.entry line) := by
  have happend := @ParkingLotRequestHandler.plain_append
  have hreceived : Plain "Received '".toList := by decide
  have hfrom : Plain "' request from: ".toList := by decide
  have hunknown : Plain "Received unknown request from: ".toList := by decide
  have hdata : Plain " [DATA: ".toList := by decide
  have hend : Plain "]".toList := by decide
  rw [entry]
  split
  · exact happend (happend (happend hreceived h) hfrom) o.client_plain
  · exact happend (happend (happend (happend hunknown o.client_plain) hdata) h) hend

theorem not_mem_toString {c : Char} (hc : c.isDigit = false) (hminus : c ≠ '-') (n : Int32) :
    c ∉ (toString n).toList := fun hmem =>
  (ParkingLotRequestHandler.mem_toString hmem).elim hminus fun hdigit =>
    Bool.false_ne_true (hc.symm.trans hdigit)

theorem client_solid : ' ' ∉ o.client := by
  have hport := not_mem_toString (c := ' ') (by decide) (by decide) o.clientPort
  have haddr := o.clientAddr.solid
  simp only [client, List.mem_append, not_or]
  exact ⟨⟨haddr, by decide⟩, hport⟩

/-- No two clients are written alike: the port has no colon in it. -/
theorem client_injective : Function.Injective client := by
  intro o o' h
  have hport := not_mem_toString (c := ':') (by decide) (by decide)
  simp only [client, List.append_assoc] at h
  obtain ⟨haddr, hshown⟩ := Delimiter.append_cons_inj_right (hport _) (hport _) h
  exact RequestLoggingObserver.ext (InetAddress.ext haddr)
    (ParkingLotRequestHandler.toString_injective hshown)

/-- An entry tells the client and the request: those of different clients differ. -/
theorem entry_inj {o o' : RequestLoggingObserver} {line line' : Text}
    (h : o.entry line = o'.entry line') : o = o' ∧ line = line' := by
  -- the entries of commands and of other requests part behind their common first word
  have hparts : ∀ {t t' : Text}, "Received '".toList ++ t ≠
      "Received unknown request from: ".toList ++ t' := by
    intro t t' heq
    have hat : some '\'' = some 'u' := congrArg (fun t : Text => t[9]?) heq
    exact absurd hat (by decide)
  by_cases hline : line ∈ commands <;> by_cases hline' : line' ∈ commands <;>
    simp only [entry, hline, hline', if_true, if_false, List.append_assoc] at h
  · have hquote : ∀ word ∈ commands, '\'' ∉ word := by decide
    obtain ⟨rfl, hrest⟩ := Delimiter.append_cons_inj (hquote _ hline) (hquote _ hline')
      (List.append_cancel_left h)
    exact ⟨client_injective (List.append_cancel_left hrest), rfl⟩
  · exact absurd h hparts
  · exact absurd h.symm hparts
  · obtain ⟨hclient, hrest⟩ := Delimiter.append_cons_inj o.client_solid o'.client_solid
      (List.append_cancel_left h)
    have hdata := List.append_cancel_left hrest
    exact ⟨client_injective hclient, List.append_cancel_right hdata⟩

end RequestLoggingObserver

/-- A session's requests are answered as without the observer; and its log gets one line
for each of them, up to the first `quit`, from which the request can be read back. -/
theorem observed_alike (o : RequestLoggingObserver) (input log : Text)
    (l : SynchronizedParkingLot) :
    let bare := apply parkingLotRequestHandler input l
    let seen := apply (ServerSession.handler o) input (log, l)
    let entries := (upToQuit (lines input)).map o.entry
    (seen.out = bare.out ∧ seen.state.2 = bare.state ∧ seen.exited = bare.exited) ∧
      (seen.state.1 = log ++ entries.flatMap println ∧ lines (entries.flatMap println) = entries) ∧
      (∀ line line', o.entry line = o.entry line' → line = line') ∧
      ∀ (o' : RequestLoggingObserver) (word line : Text), word ∈ commands →
        o'.entry word = o.entry line → line = word := by
  intro bare seen entries
  have hseen : seen = ⟨bare.out, (log ++ entries.flatMap println, bare.state), bare.exited⟩ := by
    simp only [seen, bare, entries, apply_eq_serveAll, ServerSession.handler, serveAll_observed,
      handledLines_eq, RequestLoggingObserver.foldl_notify]
  have hentries : ∀ t ∈ entries, Plain t := by
    intro t ht
    obtain ⟨line, hline, rfl⟩ := List.mem_map.mp ht
    exact o.entry_plain (lines_plain input line (upToQuit_sublist _ |>.subset hline))
  rw [hseen]
  exact ⟨⟨rfl, rfl, rfl⟩, ⟨rfl, lines_println hentries⟩,
    fun _ _ h => (RequestLoggingObserver.entry_inj h).2,
    fun _ _ _ _ h => (RequestLoggingObserver.entry_inj h).2.symm⟩

end Vsys.NetParkingSim
