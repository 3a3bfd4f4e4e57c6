import Plasma.Lib.Gossip

/-!
# Runs of a flooding network

Where the contents of queues, messages and known sets come from, what becomes
of a batch that was put into a queue, and how often an item goes to a peer.
-/

namespace Plasma.Lib.Gossip

variable {Peer Item Key σ Input Request Answer Outcome : Type*} {limit : ℕ}

/-- No host has a batch or a message left to send. -/
def Network.Idle (net : Network Peer Item Key σ limit) : Prop :=
  ∀ name, (net.hosts name).queue = [] ∧ (net.hosts name).sending = []

/-- Nothing waits to be sent, is on its way or known to come from a peer. -/
structure Network.Fresh (net : Network Peer Item Key σ limit)
    [DecidableEq Peer] : Prop where
  known : ∀ name peer known, (net.hosts name).caches.lookup peer = some known →
    known = .empty
  idle : net.Idle
  flight : net.flight = []

variable [DecidableEq Peer]

/-- Caches for the peers, with nothing known. -/
def linkTo (peers : List Peer) : AList fun _ : Peer => Known Key limit :=
  peers.foldr (fun peer caches => caches.insert peer .empty) ∅

theorem lookup_linkTo (peers : List Peer) (peer : Peer) :
    (linkTo peers : AList fun _ : Peer => Known Key limit).lookup peer =
      if peer ∈ peers then some .empty else none := by
  induction peers with
  | nil => simp [linkTo]
  | cons first peers induction =>
      by_cases same : peer = first
      · subst same
        simp [linkTo]
      · rw [linkTo, List.foldr_cons, AList.lookup_insert_ne same]
        exact induction.trans (by simp [same])

/-- Hosts that have just connected. -/
def Network.start (worker : Peer → σ) (links : Peer → List Peer) :
    Network Peer Item Key σ limit where
  hosts name := ⟨worker name, linkTo (links name), [], []⟩
  flight := []

theorem Network.start_fresh (worker : Peer → σ) (links : Peer → List Peer) :
    (start worker links : Network Peer Item Key σ limit).Fresh where
  known := by
    intro name peer known found
    have answer := (lookup_linkTo (links name) peer).symm.trans found
    split at answer
    · cases answer
      rfl
    · cases answer
  idle := fun _ => ⟨rfl, rfl⟩
  flight := rfl

/-- The peer has put the item into its queue or served it. -/
def Offers (history : List (Report Peer Item Outcome)) (peer : Peer)
    (item : Item) : Prop :=
  (∃ batch ∈ pushes peer history, item ∈ batch) ∨
    Report.served peer item ∈ history

theorem Offers.append {history : List (Report Peer Item Outcome)} {peer : Peer}
    {item : Item} (offers : Offers history peer item)
    (reports : List (Report Peer Item Outcome)) :
    Offers (history ++ reports) peer item := by
  rcases offers with ⟨batch, pushed, member⟩ | served
  · refine .inl ⟨batch, ?_, member⟩
    rw [pushes_append]
    exact List.mem_append_left _ pushed
  · exact .inr (List.mem_append_left _ served)

/-- Everything in the network goes back to a host that offered it, and
everything sent can be encoded. -/
structure Traced (encodes : Item → Bool) (key : Item → Key)
    (net : Network Peer Item Key σ limit)
    (history : List (Report Peer Item Outcome)) : Prop where
  queued : ∀ name, ∀ batch ∈ (net.hosts name).queue,
    batch ∈ pushes name history
  unsent : ∀ name, ∀ message ∈ (net.hosts name).sending,
    .addressed (.of name message) ∈ history ∧
      ∀ item ∈ message.2, ∃ batch ∈ pushes name history, item ∈ batch
  sent : ∀ envelope ∈ messages history, ∀ item ∈ envelope.items,
    encodes item = true ∧
      ∃ batch ∈ pushes envelope.sender history, item ∈ batch
  inFlight : ∀ envelope ∈ net.flight, envelope ∈ messages history
  received : ∀ receipt ∈ receipts history, receipt.1 ∈ messages history
  heard : ∀ name peer, ∀ item ∈ heardFrom name peer history,
    encodes item = true ∧ Offers history peer item
  marked : ∀ name peer known,
    (net.hosts name).caches.lookup peer = some known → ∀ mark ∈ known,
      ∃ item ∈ heardFrom name peer history, key item = mark

section Run

variable {encodes : Item → Bool} {key : Item → Key}
  {net : Network Peer Item Key σ limit}
  {history : List (Report Peer Item Outcome)}

theorem Traced.of_fresh (fresh : net.Fresh) :
    Traced encodes key net ([] : List (Report Peer Item Outcome)) where
  queued := by
    intro name batch member
    rw [(fresh.idle name).1] at member
    cases member
  unsent := by
    intro name message member
    rw [(fresh.idle name).2] at member
    cases member
  sent := by
    intro envelope member
    cases member
  inFlight := by
    intro envelope member
    rw [fresh.flight] at member
    cases member
  received := by
    intro receipt member
    cases member
  heard := by
    intro name peer item member
    cases member
  marked := by
    intro name peer known found mark member
    rw [fresh.known name peer known found] at member
    exact absurd member (Known.not_mem_empty mark)

/-- A peer whose known set holds a key has offered an item with that key. -/
theorem Traced.offered (traced : Traced encodes key net history)
    {name peer : Peer} {known : Known Key limit}
    (found : (net.hosts name).caches.lookup peer = some known) {mark : Key}
    (member : mark ∈ known) :
    ∃ item, key item = mark ∧ encodes item = true ∧
      Offers history peer item := by
  obtain ⟨item, heard, same⟩ := traced.marked name peer known found mark member
  exact ⟨item, same, traced.heard name peer item heard⟩

/-! ## What becomes of a batch -/

/-- Nothing gets lost: no message, no queue and no cache. -/
def Move.Keeps : Move Peer Input Request Answer → Prop
  | .lose _ => False
  | .restart _ _ => False
  | _ => True

instance (move : Move Peer Input Request Answer) : Decidable move.Keeps :=
  match move with
  | .lose _ | .restart _ _ => .isFalse id
  | .connect _ _ | .act _ _ | .broadcast _ | .send _ | .receive _ _ _ |
    .fetch _ _ _ _ _ => .isTrue trivial

/-- The host has a cache for the peer. -/
def Network.Linked (net : Network Peer Item Key σ limit)
    (name peer : Peer) : Prop :=
  ∃ known, (net.hosts name).caches.lookup peer = some known

theorem Network.start_linked {worker : Peer → σ} {links : Peer → List Peer}
    {name peer : Peer} :
    (start worker links : Network Peer Item Key σ limit).Linked name peer ↔
      peer ∈ links name := by
  have lookup : ((start worker links :
      Network Peer Item Key σ limit).hosts name).caches.lookup peer = _ :=
    lookup_linkTo (links name) peer
  rw [Linked, lookup]
  by_cases linked : peer ∈ links name <;> simp [linked]

/-- An item of a batch waits in the queue of its host, is about to be sent to
the peer, is on its way or has been received there, or the peer is known to
have its key. -/
def Passed (key : Item → Key) (net : Network Peer Item Key σ limit)
    (history : List (Report Peer Item Outcome)) (name peer : Peer)
    (batch : List Item) (item : Item) : Prop :=
  batch ∈ (net.hosts name).queue ∨
    (∃ message ∈ (net.hosts name).sending, message.1 = peer ∧
      item ∈ message.2 ∧ message.2 ⊆ batch) ∨
    (∃ envelope ∈ net.flight, envelope.sender = name ∧
      envelope.receiver = peer ∧ item ∈ envelope.items) ∨
    (∃ envelope outcome, (envelope, outcome) ∈ receipts history ∧
      envelope.sender = name ∧ envelope.receiver = peer ∧
        item ∈ envelope.items) ∨
    ∃ other ∈ heardFrom name peer history, key other = key item

/-- Every batch of a host that can be encoded is passed on to the peers of a
network. -/
structure Spread (encodes : Item → Bool) (key : Item → Key)
    (start net : Network Peer Item Key σ limit)
    (history : List (Report Peer Item Outcome)) : Prop where
  traced : Traced encodes key net history
  linked : ∀ name peer, start.Linked name peer → net.Linked name peer
  passed : ∀ name peer, start.Linked name peer →
    ∀ batch ∈ pushes name history, batch.all encodes = true →
      ∀ item ∈ batch, Passed key net history name peer batch item

/-- Nothing waits to be sent or is on its way. -/
def Network.Quiet (net : Network Peer Item Key σ limit) : Prop :=
  net.Idle ∧ net.flight = []

/-- Once the network is quiet, an item that a host has put into its queue was
received by every peer of the host, or came from there under the same key. -/
theorem Spread.delivered {start : Network Peer Item Key σ limit}
    (spread : Spread encodes key start net history) (quiet : net.Quiet)
    {name peer : Peer} (linked : start.Linked name peer) {batch : List Item}
    (pushed : batch ∈ pushes name history)
    (encodable : batch.all encodes = true) {item : Item}
    (part : item ∈ batch) :
    (∃ envelope outcome, Report.received envelope outcome ∈ history ∧
      envelope.receiver = peer ∧ item ∈ envelope.items) ∨
    ∃ other, key other = key item ∧ encodes other = true ∧
      Offers history peer other := by
  rcases spread.passed name peer linked batch pushed encodable item part with
    waiting | ⟨message, unsent, _⟩ | ⟨envelope, travelling, _⟩ |
      ⟨envelope, outcome, received, _, goal, carried⟩ | ⟨other, heard, same⟩
  · rw [(quiet.1 name).1] at waiting
    cases waiting
  · rw [(quiet.1 name).2] at unsent
    cases unsent
  · rw [quiet.2] at travelling
    cases travelling
  · exact .inl ⟨envelope, outcome, mem_receipts.mp received, goal, carried⟩
  · exact .inr ⟨other, same, spread.traced.heard name peer other heard⟩

variable [DecidableEq Key] [NeZero limit]
  {workers : Workers σ Input Request Answer Item Outcome}

/-- A message that is sent was waiting at its sender and can be encoded. -/
theorem unsent_of_sent {move : Move Peer Input Request Answer}
    {envelope : Envelope Peer Item}
    (sent : .sent envelope ∈ (net.step workers key move).2) :
    ∃ message ∈ (net.hosts envelope.sender).sending,
      envelope = .of envelope.sender message ∧
        ∀ item ∈ envelope.items, workers.encodes item = true := by
  have queues := net.queue_step workers key move envelope.sender
  generalize ((net.step workers key move).1.hosts
      envelope.sender).queue = queue,
    ((net.step workers key move).1.hosts
      envelope.sender).sending = sending,
    (net.step workers key move).2 = reports at queues sent
  generalize origin : envelope.sender = name at queues ⊢
  cases queues with
  | other silent undecided => exact absurd origin (silent envelope sent)
  | broadcast free waiting => simp at sent
  | sent waiting encodes =>
      rename_i message
      cases List.mem_singleton.mp sent
      exact ⟨message, by simp [waiting], rfl, List.all_eq_true.mp encodes⟩
  | refused => cases sent
  | restart answer => cases sent

/-- A message that waits after a step was waiting before, or the step has
chosen its receiver for a batch of the queue. -/
theorem unsent_of_step {move : Move Peer Input Request Answer} {name : Peer}
    {message : Peer × List Item}
    (waits : message ∈ ((net.step workers key move).1.hosts name).sending) :
    message ∈ (net.hosts name).sending ∨
      ∃ batch ∈ (net.hosts name).queue,
        message ∈ recipients key batch (net.hosts name).caches ∧
          .addressed (.of name message) ∈ (net.step workers key move).2 := by
  have queues := net.queue_step workers key move name
  generalize ((net.step workers key move).1.hosts name).queue = queue,
    ((net.step workers key move).1.hosts name).sending = sending,
    (net.step workers key move).2 = reports at queues waits ⊢
  cases queues with
  | other silent undecided => exact .inl waits
  | broadcast free waiting =>
      exact .inr ⟨_, by simp [waiting], waits, List.mem_map_of_mem waits⟩
  | sent waiting =>
      rw [waiting]
      exact .inl (List.mem_cons_of_mem _ waits)
  | refused waiting =>
      rw [waiting]
      exact .inl (List.mem_cons_of_mem _ waits)
  | restart answer => cases waits

namespace Traced

theorem queued_step (traced : Traced workers.encodes key net history)
    (move : Move Peer Input Request Answer) (name : Peer) :
    ∀ batch ∈ ((net.step workers key move).1.hosts name).queue,
      batch ∈ pushes name (history ++ (net.step workers key move).2) := by
  intro batch member
  rw [pushes_append]
  have queues := net.queue_step workers key move name
  generalize ((net.step workers key move).1.hosts name).queue = queue,
    ((net.step workers key move).1.hosts name).sending = sending,
    (net.step workers key move).2 = reports at queues member ⊢
  cases queues with
  | other silent undecided =>
      rcases List.mem_append.mp member with earlier | new
      · exact List.mem_append_left _ (traced.queued name batch earlier)
      · exact List.mem_append_right _ new
  | broadcast free waiting =>
      apply List.mem_append_left
      apply traced.queued name batch
      rw [waiting]
      exact List.mem_cons_of_mem _ member
  | sent => exact List.mem_append_left _ (traced.queued name batch member)
  | refused => exact List.mem_append_left _ (traced.queued name batch member)
  | restart answer => cases member

theorem unsent_step (traced : Traced workers.encodes key net history)
    (move : Move Peer Input Request Answer) (name : Peer) :
    ∀ message ∈ ((net.step workers key move).1.hosts name).sending,
      .addressed (.of name message) ∈
          history ++ (net.step workers key move).2 ∧
        ∀ item ∈ message.2, ∃ batch ∈ pushes name
          (history ++ (net.step workers key move).2), item ∈ batch := by
  intro message member
  rw [pushes_append]
  rcases unsent_of_step member with earlier | ⟨batch, queued, chosen, new⟩
  · obtain ⟨addressed, origin⟩ := traced.unsent name message earlier
    refine ⟨List.mem_append_left _ addressed, ?_⟩
    intro item carried
    obtain ⟨batch, pushed, part⟩ := origin item carried
    exact ⟨batch, List.mem_append_left _ pushed, part⟩
  · refine ⟨List.mem_append_right _ new, ?_⟩
    obtain ⟨_, known, _, items⟩ := mem_recipients.mp chosen
    intro item carried
    rw [items] at carried
    exact ⟨batch, List.mem_append_left _ (traced.queued name batch queued),
      (List.mem_filter.mp carried).1⟩

/-- A message that is sent can be encoded and carries items of batches of its
sender. -/
theorem sent_step (traced : Traced workers.encodes key net history)
    (move : Move Peer Input Request Answer) :
    ∀ envelope ∈ messages (history ++ (net.step workers key move).2),
      ∀ item ∈ envelope.items, workers.encodes item = true ∧
        ∃ batch ∈ pushes envelope.sender
          (history ++ (net.step workers key move).2), item ∈ batch := by
  intro envelope member item carried
  rw [pushes_append]
  rw [messages_append] at member
  rcases List.mem_append.mp member with earlier | new
  · obtain ⟨encodes, batch, pushed, part⟩ :=
      traced.sent envelope earlier item carried
    exact ⟨encodes, batch, List.mem_append_left _ pushed, part⟩
  · obtain ⟨message, waiting, same, encodes⟩ :=
      unsent_of_sent (mem_messages.mp new)
    refine ⟨encodes item carried, ?_⟩
    rw [same] at carried
    obtain ⟨batch, pushed, part⟩ :=
      (traced.unsent envelope.sender message waiting).2 item carried
    exact ⟨batch, List.mem_append_left _ pushed, part⟩

theorem inFlight_step (traced : Traced workers.encodes key net history)
    (move : Move Peer Input Request Answer) :
    ∀ envelope ∈ (net.step workers key move).1.flight,
      envelope ∈ messages (history ++ (net.step workers key move).2) := by
  intro envelope member
  rw [messages_append]
  rcases net.flight_step workers key move with
    ⟨flight, _⟩ | ⟨index, _, _, _, flight, _⟩ | ⟨index, _, flight, _⟩
  · rw [flight] at member
    rcases List.mem_append.mp member with earlier | new
    · exact List.mem_append_left _ (traced.inFlight envelope earlier)
    · exact List.mem_append_right _ new
  · rw [flight] at member
    apply List.mem_append_left
    exact traced.inFlight envelope (List.mem_of_mem_eraseIdx member)
  · rw [flight] at member
    apply List.mem_append_left
    exact traced.inFlight envelope (List.mem_of_mem_eraseIdx member)

theorem received_step (traced : Traced workers.encodes key net history)
    (move : Move Peer Input Request Answer) :
    ∀ receipt ∈ receipts (history ++ (net.step workers key move).2),
      receipt.1 ∈ messages (history ++ (net.step workers key move).2) := by
  intro receipt member
  rw [receipts_append] at member
  rw [messages_append]
  apply List.mem_append_left
  rcases List.mem_append.mp member with earlier | new
  · exact traced.received receipt earlier
  · rcases net.flight_step workers key move with
      ⟨_, none⟩ | ⟨index, envelope, outcome, found, _, one⟩ |
        ⟨index, _, _, reports⟩
    · rw [none] at new
      cases new
    · rw [one] at new
      cases List.mem_singleton.mp new
      exact traced.inFlight envelope (List.mem_of_getElem? found)
    · rw [reports] at new
      cases new

theorem heard_step (traced : Traced workers.encodes key net history)
    (move : Move Peer Input Request Answer) (name peer : Peer) :
    ∀ item ∈ heardFrom name peer (history ++ (net.step workers key move).2),
      workers.encodes item = true ∧
        Offers (history ++ (net.step workers key move).2) peer item := by
  intro item member
  rw [heardFrom_append] at member
  rcases List.mem_append.mp member with earlier | new
  · obtain ⟨encodes, offers⟩ := traced.heard name peer item earlier
    exact ⟨encodes, offers.append _⟩
  · rcases net.heard_step workers key new with
      ⟨envelope, travelling, rfl, _, carried⟩ | ⟨encodes, served⟩
    · have sent := traced.inFlight envelope travelling
      obtain ⟨encodes, origin⟩ := traced.sent envelope sent item carried
      exact ⟨encodes, Offers.append (.inl origin) _⟩
    · exact ⟨encodes, .inr (List.mem_append_right _ served)⟩

theorem marked_step (traced : Traced workers.encodes key net history)
    (move : Move Peer Input Request Answer) (name peer : Peer)
    (known : Known Key limit)
    (found : ((net.step workers key move).1.hosts name).caches.lookup peer =
      some known) :
    ∀ mark ∈ known,
      ∃ item ∈ heardFrom name peer (history ++ (net.step workers key move).2),
        key item = mark := by
  intro mark member
  rw [heardFrom_append]
  rcases net.lookup_step workers key move name peer with
    ⟨pick, lookup⟩ | ⟨_, lookup⟩ | ⟨_, lookup⟩
  · rw [lookup] at found
    obtain ⟨before, earlier, rfl⟩ := Option.map_eq_some_iff.mp found
    rcases Known.mem_or_mem_of_foldl member with old | new
    · obtain ⟨item, heard, same⟩ :=
        traced.marked name peer before earlier mark old
      exact ⟨item, List.mem_append_left _ heard, same⟩
    · obtain ⟨item, heard, same⟩ := List.mem_map.mp new
      exact ⟨item, List.mem_append_right _ heard, same⟩
  · rw [lookup] at found
    cases found
    exact absurd member (Known.not_mem_empty mark)
  · rw [lookup] at found
    cases found

theorem step (traced : Traced workers.encodes key net history)
    (move : Move Peer Input Request Answer) :
    Traced workers.encodes key (net.step workers key move).1
      (history ++ (net.step workers key move).2) where
  queued := traced.queued_step move
  unsent := traced.unsent_step move
  sent := traced.sent_step move
  inFlight := traced.inFlight_step move
  received := traced.received_step move
  heard := traced.heard_step move
  marked := traced.marked_step move

end Traced

theorem traced_run (fresh : net.Fresh)
    (moves : List (Move Peer Input Request Answer)) :
    Traced workers.encodes key (execute (Network.step workers key) net moves).1
      (execute (Network.step workers key) net moves).2 := by
  refine execute_invariant (Network.step workers key)
    (fun _ net history => Traced workers.encodes key net history) ?_
    (.of_fresh fresh) moves
  intro _ net history move traced
  exact traced.step move

theorem linked_step {name peer : Peer} (linked : net.Linked name peer)
    {move : Move Peer Input Request Answer} (keeps : move.Keeps) :
    (net.step workers key move).1.Linked name peer := by
  obtain ⟨known, found⟩ := linked
  rcases net.lookup_step workers key move name peer with
    ⟨pick, lookup⟩ | ⟨_, lookup⟩ | ⟨⟨answer, rfl⟩, _⟩
  · rw [found] at lookup
    exact ⟨_, lookup⟩
  · exact ⟨_, lookup⟩
  · exact keeps.elim

/-- The peers with a cache are among the recipients of a batch. -/
theorem passed_of_waiting (traced : Traced workers.encodes key net history)
    {name peer : Peer} (linked : net.Linked name peer) {batch : List Item}
    {item : Item} (part : item ∈ batch) (waiting : batch ∈ (net.hosts name).queue)
    {move : Move Peer Input Request Answer} (keeps : move.Keeps) :
    Passed key (net.step workers key move).1
      (history ++ (net.step workers key move).2) name peer batch item := by
  have queues := net.queue_step workers key move name
  unfold Passed
  generalize ((net.step workers key move).1.hosts name).queue = queue,
    ((net.step workers key move).1.hosts name).sending = sending,
    (net.step workers key move).2 = reports at queues ⊢
  cases queues with
  | other silent undecided => exact .inl (List.mem_append_left _ waiting)
  | broadcast free queue =>
      rw [queue] at waiting
      rcases List.mem_cons.mp waiting with rfl | later
      · obtain ⟨known, found⟩ := linked
        by_cases present : key item ∈ known
        · obtain ⟨other, heard, same⟩ :=
            traced.marked name peer known found (key item) present
          refine .inr (.inr (.inr (.inr ⟨other, ?_, same⟩)))
          rw [heardFrom_append]
          exact List.mem_append_left _ heard
        · have carried : item ∈ unknown key known batch :=
            List.mem_filter.mpr ⟨part, by simpa using present⟩
          have chosen : (peer, unknown key known batch) ∈
              recipients key batch (net.hosts name).caches :=
            mem_recipients.mpr
              ⟨List.ne_nil_of_mem carried, known, found, rfl⟩
          exact .inr (.inl ⟨_, chosen, rfl, carried, List.filter_subset_self _⟩)
      · exact .inl later
  | sent => exact .inl waiting
  | refused => exact .inl waiting
  | restart answer => exact keeps.elim

/-- The messages of a batch that can be encoded are sent. -/
theorem passed_of_unsent {name peer : Peer} {batch : List Item}
    (encodable : batch.all workers.encodes = true) {item : Item}
    {message : Peer × List Item} (unsent : message ∈ (net.hosts name).sending)
    (goal : message.1 = peer) (carried : item ∈ message.2)
    (parts : message.2 ⊆ batch)
    {move : Move Peer Input Request Answer} (keeps : move.Keeps) :
    Passed key (net.step workers key move).1
      (history ++ (net.step workers key move).2) name peer batch item := by
  have queues := net.queue_step workers key move name
  have flights := net.flight_step workers key move
  unfold Passed
  generalize ((net.step workers key move).1.hosts name).queue = queue,
    ((net.step workers key move).1.hosts name).sending = sending,
    (net.step workers key move).1.flight = flight,
    (net.step workers key move).2 = reports at queues flights ⊢
  cases queues with
  | other silent undecided =>
      exact .inr (.inl ⟨message, unsent, goal, carried, parts⟩)
  | broadcast free waiting =>
      rw [free] at unsent
      cases unsent
  | sent waiting encodes =>
      rw [waiting] at unsent
      rcases List.mem_cons.mp unsent with rfl | later
      · rcases flights with ⟨grown, _⟩ | ⟨_, _, _, _, _, taken⟩ |
          ⟨_, _, _, silent⟩
        · refine .inr (.inr (.inl ⟨.of name message, ?_, rfl, goal, carried⟩))
          rw [grown, messages_sent]
          exact List.mem_append_right _ (List.mem_singleton.mpr rfl)
        · cases taken
        · cases silent
      · exact .inr (.inl ⟨message, later, goal, carried, parts⟩)
  | refused waiting unencodable =>
      rw [waiting] at unsent
      rcases List.mem_cons.mp unsent with rfl | later
      · refine absurd ?_ unencodable
        apply List.all_eq_true.mpr
        intro other member
        exact List.all_eq_true.mp encodable other (parts member)
      · exact .inr (.inl ⟨message, later, goal, carried, parts⟩)
  | restart answer => exact keeps.elim

theorem passed_step (traced : Traced workers.encodes key net history)
    {name peer : Peer} (linked : net.Linked name peer) {batch : List Item}
    (encodable : batch.all workers.encodes = true) {item : Item}
    (part : item ∈ batch) (passed : Passed key net history name peer batch item)
    {move : Move Peer Input Request Answer} (keeps : move.Keeps) :
    Passed key (net.step workers key move).1
      (history ++ (net.step workers key move).2) name peer batch item := by
  rcases passed with waiting | ⟨message, unsent, goal, carried, parts⟩ |
    ⟨envelope, travelling, origin, goal, carried⟩ |
    ⟨envelope, outcome, received, between⟩ | ⟨other, heard, same⟩
  · exact passed_of_waiting traced linked part waiting keeps
  · exact passed_of_unsent encodable unsent goal carried parts keeps
  · rcases net.flight_step workers key move with
      ⟨flight, _⟩ | ⟨index, taken, outcome, found, flight, one⟩ |
        ⟨index, rfl | ⟨dropped, found, unreadable⟩, _⟩
    · refine .inr (.inr (.inl ⟨envelope, ?_, origin, goal, carried⟩))
      rw [flight]
      exact List.mem_append_left _ travelling
    · obtain ⟨place, stands⟩ := List.mem_iff_getElem?.mp travelling
      by_cases same : place = index
      · rw [same, found, Option.some.injEq] at stands
        refine .inr (.inr (.inr (.inl
          ⟨envelope, outcome, ?_, origin, goal, carried⟩)))
        rw [receipts_append, one, stands]
        exact List.mem_append_right _ (List.mem_singleton.mpr rfl)
      · refine .inr (.inr (.inl ⟨envelope, ?_, origin, goal, carried⟩))
        rw [flight]
        exact List.mem_eraseIdx_iff_getElem?.mpr ⟨place, same, stands⟩
    · exact keeps.elim
    · have sent := traced.inFlight dropped (List.mem_of_getElem? found)
      refine absurd (List.all_eq_true.mpr ?_) unreadable
      intro other member
      exact (traced.sent dropped sent other member).1
  · refine .inr (.inr (.inr (.inl ⟨envelope, outcome, ?_, between⟩)))
    rw [receipts_append]
    exact List.mem_append_left _ received
  · refine .inr (.inr (.inr (.inr ⟨other, ?_, same⟩)))
    rw [heardFrom_append]
    exact List.mem_append_left _ heard

/-- What a step puts into the queue of a host waits there. -/
theorem queued_of_pushed {move : Move Peer Input Request Answer} {name : Peer}
    {batch : List Item}
    (pushed : batch ∈ pushes name (net.step workers key move).2) :
    batch ∈ ((net.step workers key move).1.hosts name).queue := by
  have queues := net.queue_step workers key move name
  generalize ((net.step workers key move).1.hosts name).queue = queue,
    ((net.step workers key move).1.hosts name).sending = sending,
    (net.step workers key move).2 = reports at queues pushed ⊢
  cases queues with
  | other silent undecided => exact List.mem_append_right _ pushed
  | broadcast free waiting =>
      rw [pushes_addressed] at pushed
      cases pushed
  | sent => cases pushed
  | refused => cases pushed
  | restart answer => cases pushed

theorem Spread.step {start : Network Peer Item Key σ limit}
    (spread : Spread workers.encodes key start net history)
    {move : Move Peer Input Request Answer} (keeps : move.Keeps) :
    Spread workers.encodes key start (net.step workers key move).1
      (history ++ (net.step workers key move).2) where
  traced := spread.traced.step move
  linked := by
    intro name peer linked
    exact linked_step (spread.linked name peer linked) keeps
  passed := by
    intro name peer linked batch pushed encodable item part
    rw [pushes_append] at pushed
    rcases List.mem_append.mp pushed with earlier | new
    · exact passed_step spread.traced (spread.linked name peer linked)
        encodable part
        (spread.passed name peer linked batch earlier encodable item part)
        keeps
    · exact .inl (queued_of_pushed new)

theorem spread_run (fresh : net.Fresh)
    {moves : List (Move Peer Input Request Answer)}
    (keeps : ∀ move ∈ moves, move.Keeps) :
    Spread workers.encodes key net
      (execute (Network.step workers key) net moves).1
      (execute (Network.step workers key) net moves).2 := by
  refine execute_induction (Network.step workers key)
    (fun _ move => move.Keeps)
    (fun _ reached history => Spread workers.encodes key net reached history)
    ?_ ?_ (stepsMeet_of_forall (fun move member _ => keeps move member) net)
  · intro _ reached history move spread admitted
    exact spread.step admitted
  · refine ⟨.of_fresh fresh, fun _ _ linked => linked, ?_⟩
    intro name peer _ batch pushed
    cases pushed

/-! ## Links -/

theorem linked_of_step {name peer : Peer}
    {move : Move Peer Input Request Answer}
    (linked : (net.step workers key move).1.Linked name peer) :
    net.Linked name peer ∨ move = .connect name peer := by
  obtain ⟨known, found⟩ := linked
  rcases net.lookup_step workers key move name peer with
    ⟨pick, lookup⟩ | ⟨connected, _⟩ | ⟨_, lookup⟩
  · rw [lookup] at found
    obtain ⟨before, earlier, _⟩ := Option.map_eq_some_iff.mp found
    exact .inl ⟨before, earlier⟩
  · exact .inr connected
  · rw [lookup] at found
    cases found

/-- No host sends to itself or is about to. -/
structure Apart (net : Network Peer Item Key σ limit)
    (history : List (Report Peer Item Outcome)) : Prop where
  linked : ∀ name, ¬ net.Linked name name
  unsent : ∀ name, ∀ message ∈ (net.hosts name).sending, message.1 ≠ name
  sent : ∀ envelope ∈ messages history, envelope.sender ≠ envelope.receiver

theorem Apart.step (apart : Apart net history)
    {move : Move Peer Input Request Answer}
    (others : ∀ name, move ≠ .connect name name) :
    Apart (net.step workers key move).1
      (history ++ (net.step workers key move).2) where
  linked := by
    intro name linked
    rcases linked_of_step linked with before | connected
    · exact apart.linked name before
    · exact others name connected
  unsent := by
    intro name message member
    rcases unsent_of_step member with earlier | ⟨batch, _, chosen, _⟩
    · exact apart.unsent name message earlier
    · intro same
      obtain ⟨_, known, found, _⟩ := mem_recipients.mp chosen
      rw [same] at found
      exact apart.linked name ⟨known, found⟩
  sent := by
    intro envelope member
    rw [messages_append] at member
    rcases List.mem_append.mp member with earlier | new
    · exact apart.sent envelope earlier
    · obtain ⟨message, waiting, same, _⟩ :=
        unsent_of_sent (mem_messages.mp new)
      have receiver : envelope.receiver = message.1 :=
        congrArg Envelope.receiver same
      rw [receiver]
      exact (apart.unsent envelope.sender message waiting).symm

/-- A host that is never linked to itself sends itself no message. -/
theorem messages_apart (idle : net.Idle)
    (apart : ∀ name, ¬ net.Linked name name)
    {moves : List (Move Peer Input Request Answer)}
    (others : ∀ name, .connect name name ∉ moves) :
    ∀ envelope ∈ messages (execute (Network.step workers key) net moves).2,
      envelope.sender ≠ envelope.receiver := by
  refine (execute_induction (Network.step workers key)
    (fun _ move => ∀ name, move ≠ .connect name name)
    (fun _ net history => Apart net history) ?_ ?_
    (stepsMeet_of_forall ?_ net)).sent
  · intro _ net history move apart admitted
    exact apart.step admitted
  · refine ⟨apart, ?_, by simp⟩
    intro name message member
    rw [(idle name).2] at member
    cases member
  · intro move member _ name same
    rw [same] at member
    exact others name member

/-! ## No echo -/

/-- The cache of a host for a peer is not replaced. -/
def Move.KeepsCache (name peer : Peer) :
    Move Peer Input Request Answer → Prop
  | .connect host other => ¬ (host = name ∧ other = peer)
  | .restart host _ => host ≠ name
  | _ => True

instance (name peer : Peer) (move : Move Peer Input Request Answer) :
    Decidable (move.KeepsCache name peer) :=
  match move with
  | .connect host other =>
      inferInstanceAs (Decidable (¬ (host = name ∧ other = peer)))
  | .restart host _ => inferInstanceAs (Decidable (host ≠ name))
  | .act _ _ | .broadcast _ | .send _ | .receive _ _ _ | .fetch _ _ _ _ _ |
    .lose _ => .isTrue trivial

/-- The keys a host has heard of from a peer. -/
def keysFrom (key : Item → Key) (name peer : Peer)
    (history : List (Report Peer Item Outcome)) : Finset Key :=
  ((heardFrom name peer history).map key).toFinset

theorem keysFrom_subset (key : Item → Key) (name peer : Peer)
    (history reports : List (Report Peer Item Outcome)) :
    keysFrom key name peer history ⊆
      keysFrom key name peer (history ++ reports) := by
  intro mark member
  rw [keysFrom, heardFrom_append, List.map_append, List.toFinset_append]
  exact Finset.mem_union_left _ member

/-- With few keys from a peer, all of them are known. -/
def Remembers (key : Item → Key) (name peer : Peer)
    (net : Network Peer Item Key σ limit)
    (history : List (Report Peer Item Outcome)) : Prop :=
  (keysFrom key name peer history).card < limit →
    ∀ known, (net.hosts name).caches.lookup peer = some known →
      ∀ item ∈ heardFrom name peer history, key item ∈ known

theorem Remembers.step {name peer : Peer}
    (traced : Traced workers.encodes key net history)
    (remembers : Remembers key name peer net history)
    {move : Move Peer Input Request Answer}
    (keeps : move.KeepsCache name peer) :
    Remembers key name peer (net.step workers key move).1
      (history ++ (net.step workers key move).2) := by
  intro few known found item heard
  have earlierFew := (Finset.card_le_card (keysFrom_subset key name peer history
    (net.step workers key move).2)).trans_lt few
  rcases net.lookup_step workers key move name peer with
    ⟨pick, lookup⟩ | ⟨rfl, _⟩ | ⟨⟨answer, rfl⟩, _⟩
  · rw [lookup] at found
    obtain ⟨before, earlier, rfl⟩ := Option.map_eq_some_iff.mp found
    apply Known.mem_foldl_of_small pick few
    · intro mark member
      obtain ⟨other, heardOther, rfl⟩ :=
        traced.marked name peer before earlier mark member
      apply keysFrom_subset
      exact List.mem_toFinset.mpr (List.mem_map_of_mem heardOther)
    · intro mark member
      rw [keysFrom, heardFrom_append, List.map_append]
      exact List.mem_toFinset.mpr (List.mem_append_right _ member)
    · rw [heardFrom_append] at heard
      rcases List.mem_append.mp heard with old | new
      · exact .inl (remembers earlierFew before earlier item old)
      · exact .inr (List.mem_map_of_mem new)
  · exact absurd ⟨rfl, rfl⟩ keeps
  · exact absurd rfl keeps

theorem remembers_run (fresh : net.Fresh) {name peer : Peer}
    {moves : List (Move Peer Input Request Answer)}
    (keeps : ∀ move ∈ moves, move.KeepsCache name peer) :
    Remembers key name peer (execute (Network.step workers key) net moves).1
      (execute (Network.step workers key) net moves).2 := by
  refine (execute_induction (Network.step workers key)
    (fun _ move => move.KeepsCache name peer)
    (fun _ net history => Traced workers.encodes key net history ∧
      Remembers key name peer net history) ?_ ?_
    (stepsMeet_of_forall (fun move member _ => keeps move member) net)).2
  · rintro _ net history move ⟨traced, remembers⟩ admitted
    exact ⟨traced.step move, remembers.step traced admitted⟩
  · refine ⟨.of_fresh fresh, ?_⟩
    intro _ known _ item heard
    cases heard

/-- A host never chooses a peer as a recipient of an item after it has heard
its key from there, as long as it hears of few keys. -/
theorem no_echo (fresh : net.Fresh) {name peer : Peer}
    {moves : List (Move Peer Input Request Answer)}
    (keeps : ∀ move ∈ moves, move.KeepsCache name peer)
    (few : (keysFrom key name peer
      (execute (Network.step workers key) net moves).2).card < limit)
    {before after : List (Report Peer Item Outcome)}
    {envelope : Envelope Peer Item}
    (split : (execute (Network.step workers key) net moves).2 =
      before ++ .addressed envelope :: after)
    (origin : envelope.sender = name) (goal : envelope.receiver = peer) :
    ∀ item ∈ envelope.items, ∀ other ∈ heardFrom name peer before,
      key other ≠ key item := by
  intro item carried other heard same
  have fewBefore : (keysFrom key name peer before).card < limit := by
    rw [split] at few
    exact (Finset.card_le_card (keysFrom_subset ..)).trans_lt few
  obtain ⟨past, move, rest, early, late, rfl, rfl, made⟩ := execute_split split
  have remembers : Remembers key name peer
      (execute (Network.step workers key) net past).1
      (execute (Network.step workers key) net past).2 := by
    apply remembers_run fresh
    intro move member
    exact keeps move (List.mem_append_left _ member)
  generalize execute (Network.step workers key) net past = reached at *
  obtain ⟨net, history⟩ := reached
  have chosen : .addressed envelope ∈ (net.step workers key move).2 := by
    simp [made]
  have queues := net.queue_step workers key move name
  generalize ((net.step workers key move).1.hosts name).queue = queue,
    ((net.step workers key move).1.hosts name).sending = sending,
    (net.step workers key move).2 = reports at queues chosen made
  cases queues with
  | other silent undecided => exact undecided envelope chosen origin
  | broadcast free waiting =>
      obtain ⟨message, member, same⟩ := List.mem_map.mp chosen
      cases same
      obtain ⟨_, known, found, items⟩ := mem_recipients.mp member
      have silent : heardFrom name peer
          (early ++ .addressed (.of name message) :: late) = [] := by
        rw [← made, heardFrom_addressed]
      rw [heardFrom_append, List.append_eq_nil_iff] at silent
      rw [heardFrom_append, silent.1, List.append_nil] at heard
      have peers : message.1 = peer := goal
      rw [peers] at found
      have present := remembers
        ((Finset.card_le_card (keysFrom_subset ..)).trans_lt fewBefore)
        known found other heard
      have carried : item ∈ message.2 := carried
      rw [items] at carried
      have absent := (List.mem_filter.mp carried).2
      rw [same] at present
      simp [present] at absent
  | sent => simp at chosen
  | refused => cases chosen
  | restart answer => cases chosen

/-- A message is sent only after its receiver was chosen for it. -/
theorem addressed_of_sent (fresh : net.Fresh)
    {moves : List (Move Peer Input Request Answer)}
    {before after : List (Report Peer Item Outcome)}
    {envelope : Envelope Peer Item}
    (split : (execute (Network.step workers key) net moves).2 =
      before ++ .sent envelope :: after) :
    .addressed envelope ∈ before := by
  obtain ⟨past, move, rest, early, late, rfl, rfl, made⟩ := execute_split split
  have traced : Traced workers.encodes key
      (execute (Network.step workers key) net past).1
      (execute (Network.step workers key) net past).2 := traced_run fresh past
  generalize execute (Network.step workers key) net past = reached at *
  obtain ⟨net, history⟩ := reached
  apply List.mem_append_left
  have sent : .sent envelope ∈ (net.step workers key move).2 := by
    simp [made]
  obtain ⟨message, waiting, same, _⟩ := unsent_of_sent sent
  rw [same]
  exact (traced.unsent envelope.sender message waiting).1

/-! ## How often an item goes to a peer -/

variable [DecidableEq Item]

/-- The messages with the item from a host to a peer. -/
def copies (name peer : Peer) (item : Item)
    (history : List (Report Peer Item Outcome)) : ℕ :=
  (messages history).countP fun envelope =>
    envelope.sender = name ∧ envelope.receiver = peer ∧ item ∈ envelope.items

theorem copies_append (name peer : Peer) (item : Item)
    (first second : List (Report Peer Item Outcome)) :
    copies name peer item (first ++ second) =
      copies name peer item first + copies name peer item second := by
  rw [copies, messages_append, List.countP_append]
  rfl

/-- The messages with the item that are left to send to a peer. -/
def unsent (peer : Peer) (item : Item)
    (sending : List (Peer × List Item)) : ℕ :=
  sending.countP fun message => message.1 = peer ∧ item ∈ message.2

omit [NeZero limit] in
/-- A batch goes to a peer in one message. -/
theorem unsent_recipients (peer : Peer) (item : Item) (batch : List Item)
    (caches : AList fun _ : Peer => Known Key limit) :
    unsent peer item (recipients key batch caches) ≤
      if item ∈ batch then 1 else 0 := by
  rw [unsent, recipients]
  refine (List.filter_sublist.countP_le).trans ?_
  rw [List.countP_map]
  split
  · have once : caches.entries.countP (fun entry => entry.1 = peer) ≤ 1 := by
      have distinct := List.nodup_iff_count_le_one.mp caches.nodupKeys peer
      rwa [List.keys, List.count_eq_countP, List.countP_map] at distinct
    refine (List.countP_mono_left ?_).trans once
    intro entry _ counted
    simp at counted ⊢
    exact counted.1
  · rename_i absent
    apply Nat.le_of_eq
    apply List.countP_eq_zero.mpr
    intro entry _ counted
    simp [unknown, absent] at counted

theorem copies_eq_zero_of_not_encodes {item : Item}
    (unencodable : ¬ workers.encodes item = true) (name peer : Peer)
    (moves : List (Move Peer Input Request Answer)) :
    copies name peer item
      (execute (Network.step workers key) net moves).2 = 0 := by
  refine execute_invariant (Network.step workers key)
    (fun _ _ history => copies name peer item history = 0) ?_ rfl moves
  intro _ net history move none
  rw [copies_append, none, Nat.zero_add]
  apply List.countP_eq_zero.mpr
  intro envelope sent counted
  simp only [decide_eq_true_eq] at counted
  obtain ⟨_, _, _, encodes⟩ := unsent_of_sent (mem_messages.mp sent)
  exact unencodable (encodes item counted.2.2)

theorem copies_eq_zero {name : Peer}
    {reports : List (Report Peer Item Outcome)}
    (silent : ∀ envelope, .sent envelope ∈ reports → envelope.sender ≠ name)
    (peer : Peer) (item : Item) : copies name peer item reports = 0 := by
  apply List.countP_eq_zero.mpr
  intro envelope sent
  simp [silent envelope (mem_messages.mp sent)]

variable (key net workers) in
theorem copies_step (name peer : Peer) (item : Item)
    (move : Move Peer Input Request Answer) :
    copies name peer item (net.step workers key move).2 +
        unsent peer item ((net.step workers key move).1.hosts name).sending +
        ((net.step workers key move).1.hosts name).queue.countP (item ∈ ·) ≤
      unsent peer item (net.hosts name).sending +
        (net.hosts name).queue.countP (item ∈ ·) +
        (pushes name (net.step workers key move).2).countP (item ∈ ·) := by
  have queues := net.queue_step workers key move name
  generalize ((net.step workers key move).1.hosts name).queue = queue,
    ((net.step workers key move).1.hosts name).sending = sending,
    (net.step workers key move).2 = reports at queues ⊢
  cases queues with
  | other silent undecided =>
      rw [copies_eq_zero silent, List.countP_append]
      omega
  | broadcast free waiting =>
      rename_i batch
      have few : unsent peer item
          (recipients key batch (net.hosts name).caches) ≤ _ :=
        unsent_recipients peer item batch _
      rw [copies_eq_zero (by simp), waiting, List.countP_cons]
      simp only [decide_eq_true_eq]
      omega
  | sent waiting =>
      rename_i message _
      have one : copies name peer item
          ([.sent (.of name message)] : List (Report Peer Item Outcome)) =
          if message.1 = peer ∧ item ∈ message.2 then 1 else 0 := by
        simp [copies, Envelope.of, List.countP_cons]
      rw [one, waiting, unsent, unsent, List.countP_cons]
      simp only [decide_eq_true_eq]
      omega
  | refused waiting =>
      rw [copies_eq_zero (by simp), waiting, unsent, unsent, List.countP_cons]
      omega
  | restart answer =>
      rw [copies_eq_zero (by simp)]
      simp [unsent]

theorem copies_le_pushes (idle : net.Idle) (name peer : Peer) (item : Item)
    (moves : List (Move Peer Input Request Answer)) :
    copies name peer item (execute (Network.step workers key) net moves).2 +
        unsent peer item ((execute (Network.step workers key) net moves).1.hosts
          name).sending +
        (((execute (Network.step workers key) net moves).1.hosts
          name).queue.countP (item ∈ ·)) ≤
      (pushes name (execute (Network.step workers key) net moves).2).countP
        (item ∈ ·) := by
  refine execute_invariant (Network.step workers key)
    (fun _ net history => copies name peer item history +
      unsent peer item (net.hosts name).sending +
      ((net.hosts name).queue.countP (item ∈ ·)) ≤
        (pushes name history).countP (item ∈ ·)) ?_ ?_ moves
  · intro _ net history move bound
    have step := copies_step key net workers name peer item move
    rw [copies_append, pushes_append, List.countP_append]
    omega
  · obtain ⟨queue, sending⟩ := idle name
    simp [queue, sending, copies, unsent]

end Run

end Plasma.Lib.Gossip
