import Plasma.Lib.Trace

/-!
# Flooding with known sets

A host passes batches of items on to its peers.  For every peer it keeps a set
of limited size with the keys of the items that came from this peer, and a
batch goes to every peer without the items whose keys are in that set.  The
recipients of a batch are chosen at once and the messages sent one by one; a
message with an item that cannot be encoded is not sent.  What the worker
behind a host does with an item is a parameter.  Messages may overtake each
other and get lost.
-/

namespace Plasma.Lib.Gossip

/-- A set of keys of limited size. -/
structure Known (Key : Type*) (limit : ℕ) where
  members : List Key
  nodup : members.Nodup
  bounded : members.length ≤ limit

namespace Known

variable {Key : Type*} {limit : ℕ}

def empty : Known Key limit where
  members := []
  nodup := List.nodup_nil
  bounded := Nat.zero_le limit

instance : Membership Key (Known Key limit) where
  mem known key := key ∈ known.members

@[simp] theorem not_mem_empty (key : Key) :
    key ∉ (empty : Known Key limit) := List.not_mem_nil

instance [DecidableEq Key] (key : Key) (known : Known Key limit) :
    Decidable (key ∈ known) :=
  inferInstanceAs (Decidable (key ∈ known.members))

/-- An element goes, whichever it is. -/
def pop (pick : ℕ) (members : List Key) : List Key :=
  members.eraseIdx (pick % members.length)

/-- Elements go while the set is full. -/
def makeRoom (limit pick : ℕ) : ℕ → List Key → List Key
  | 0, members => members
  | rounds + 1, members =>
      if limit ≤ members.length then
        makeRoom limit pick rounds (pop pick members)
      else members

theorem length_pop {members : List Key} (pick : ℕ)
    (nonempty : 0 < members.length) :
    (pop pick members).length + 1 = members.length := by
  rw [pop, List.length_eraseIdx_of_lt (Nat.mod_lt pick nonempty)]
  omega

theorem makeRoom_sublist (limit pick rounds : ℕ) (members : List Key) :
    (makeRoom limit pick rounds members).Sublist members := by
  induction rounds generalizing members with
  | zero => exact List.Sublist.refl members
  | succ rounds induction =>
      simp only [makeRoom]
      split
      · exact (induction _).trans (List.eraseIdx_sublist members _)
      · exact List.Sublist.refl members

theorem length_makeRoom (limit pick : ℕ) [NeZero limit] {rounds : ℕ}
    {members : List Key} (enough : members.length ≤ rounds) :
    (makeRoom limit pick rounds members).length < limit := by
  have positive : 0 < limit := Nat.pos_of_neZero limit
  induction rounds generalizing members with
  | zero =>
      have none : members.length = 0 := by omega
      simpa only [makeRoom, none] using positive
  | succ rounds induction =>
      simp only [makeRoom]
      split
      · rename_i full
        have shorter := length_pop pick (positive.trans_le full)
        exact induction (by omega)
      · omega

theorem makeRoom_of_lt (pick rounds : ℕ) {members : List Key}
    (room : members.length < limit) :
    makeRoom limit pick rounds members = members := by
  cases rounds with
  | zero => rfl
  | succ rounds => exact if_neg (by omega)

variable [DecidableEq Key] [NeZero limit]

/-- The key is put into the set after room was made for it. -/
def mark (pick : ℕ) (known : Known Key limit) (key : Key) :
    Known Key limit where
  members := (makeRoom limit pick known.members.length known.members).insert key
  nodup := (known.nodup.sublist (makeRoom_sublist ..)).insert
  bounded := by
    have room := length_makeRoom limit pick (le_refl known.members.length)
    by_cases present :
        key ∈ makeRoom limit pick known.members.length known.members
    · rw [List.insert_of_mem present]
      exact room.le
    · rw [List.insert_of_not_mem present]
      exact room

theorem mem_mark_self (pick : ℕ) (known : Known Key limit) (key : Key) :
    key ∈ known.mark pick key := List.mem_insert_self

theorem eq_or_mem_of_mem_mark {pick : ℕ} {known : Known Key limit}
    {key other : Key} (member : other ∈ known.mark pick key) :
    other = key ∨ other ∈ known := by
  rcases List.mem_insert_iff.mp member with same | earlier
  · exact .inl same
  · exact .inr ((makeRoom_sublist ..).subset earlier)

theorem mem_mark_of_mem (pick : ℕ) {known : Known Key limit} (key : Key)
    (room : known.members.length < limit) {other : Key}
    (member : other ∈ known) : other ∈ known.mark pick key := by
  apply List.mem_insert_of_mem
  rw [makeRoom_of_lt pick _ room]
  exact member

theorem mem_or_mem_of_foldl {pick : ℕ} {keys : List Key}
    {known : Known Key limit} {key : Key}
    (member : key ∈ keys.foldl (mark pick) known) :
    key ∈ known ∨ key ∈ keys := by
  induction keys generalizing known with
  | nil => exact .inl member
  | cons first keys induction =>
      rcases induction member with earlier | later
      · rcases eq_or_mem_of_mem_mark earlier with rfl | before
        · exact .inr List.mem_cons_self
        · exact .inl before
      · exact .inr (List.mem_cons_of_mem _ later)

/-- As long as fewer keys than the limit are about, none is dropped. -/
theorem mem_foldl_of_small (pick : ℕ) {keys : List Key}
    {known : Known Key limit} {all : Finset Key} (small : all.card < limit)
    (within : ∀ key ∈ known, key ∈ all) (more : ∀ key ∈ keys, key ∈ all)
    {key : Key} (member : key ∈ known ∨ key ∈ keys) :
    key ∈ keys.foldl (mark pick) known := by
  induction keys generalizing known with
  | nil =>
      rcases member with earlier | new
      · exact earlier
      · cases new
  | cons first keys induction =>
      have fits : known.members.toFinset ⊆ all := by
        intro other present
        exact within other (List.mem_toFinset.mp present)
      have room : known.members.length < limit := by
        rw [← List.toFinset_card_of_nodup known.nodup]
        exact (Finset.card_le_card fits).trans_lt small
      apply induction
      · intro other present
        rcases eq_or_mem_of_mem_mark present with rfl | earlier
        · exact more other List.mem_cons_self
        · exact within other earlier
      · intro other present
        exact more other (List.mem_cons_of_mem _ present)
      · rcases member with earlier | new
        · exact .inl (mem_mark_of_mem pick first room earlier)
        · rcases List.mem_cons.mp new with rfl | later
          · exact .inl (mem_mark_self pick known key)
          · exact .inr later

end Known

/-- Which items can be put into a message, and what the worker behind a host
does on its own account, with the items of a message, when a peer asks it for
an item, whether it asks its peers for items, what it does with an item it has
asked for, and when its process is started again. -/
structure Workers (σ Input Request Answer Item Outcome : Type*) where
  encodes : Item → Bool
  act : σ → Input → σ × List (List Item)
  take : σ → Answer → List Item → σ × List (List Item) × Outcome
  serve : σ → Request → σ × Option Item
  asks : σ → Bool
  fetched : σ → Answer → Item → σ × List (List Item) × Outcome
  restart : σ → Answer → σ

/-- `sending` holds what is left to send of the batch in hand. -/
structure Host (Peer Item Key σ : Type*) (limit : ℕ) where
  worker : σ
  caches : AList fun _ : Peer => Known Key limit
  queue : List (List Item)
  sending : List (Peer × List Item)

structure Envelope (Peer Item : Type*) where
  sender : Peer
  receiver : Peer
  items : List Item
deriving DecidableEq

/-- The message of a host, given its receiver and its items. -/
def Envelope.of {Peer Item : Type*} (host : Peer)
    (message : Peer × List Item) : Envelope Peer Item :=
  ⟨host, message.1, message.2⟩

structure Network (Peer Item Key σ : Type*) (limit : ℕ) where
  hosts : Peer → Host Peer Item Key σ limit
  flight : List (Envelope Peer Item)

/-- `connect` gives the host a fresh cache for the peer.  `broadcast` takes the
next batch and chooses its recipients, `send` sends the next of its messages.
A message may be received out of order or get lost, and a restart loses caches,
queue and unsent messages. -/
inductive Move (Peer Input Request Answer : Type*) where
  | connect (host peer : Peer)
  | act (host : Peer) (input : Input)
  | broadcast (host : Peer)
  | send (host : Peer)
  | receive (index pick : ℕ) (answer : Answer)
  | fetch (host peer : Peer) (request : Request) (pick : ℕ) (answer : Answer)
  | restart (host : Peer) (answer : Answer)
  | lose (index : ℕ)

inductive Report (Peer Item Outcome : Type*) where
  | pushed (host : Peer) (batch : List Item)
  | addressed (envelope : Envelope Peer Item)
  | sent (envelope : Envelope Peer Item)
  | received (envelope : Envelope Peer Item) (outcome : Outcome)
  | served (host : Peer) (item : Item)
  | fetched (host peer : Peer) (item : Item) (outcome : Outcome)
deriving DecidableEq

section Steps

variable {Peer Item Key σ Input Request Answer Outcome : Type*} {limit : ℕ}
  [DecidableEq Peer] [DecidableEq Key] [NeZero limit]

/-- The items come from a peer; without a cache for it nothing is noted. -/
def noted (key : Item → Key) (pick : ℕ) (peer : Peer) (items : List Item)
    (caches : AList fun _ : Peer => Known Key limit) :
    AList fun _ : Peer => Known Key limit :=
  match caches.lookup peer with
  | none => caches
  | some known =>
      caches.insert peer ((items.map key).foldl (Known.mark pick) known)

/-- The items of a batch of which a peer is not known to have the key. -/
def unknown (key : Item → Key) (known : Known Key limit) (batch : List Item) :
    List Item :=
  batch.filter fun item => key item ∉ known

/-- The peers to which a batch is passed on, with the items each is sent. -/
def recipients (key : Item → Key) (batch : List Item)
    (caches : AList fun _ : Peer => Known Key limit) :
    List (Peer × List Item) :=
  (caches.entries.map fun entry =>
      (entry.1, unknown key entry.2 batch)).filter
    fun message => !message.2.isEmpty

namespace Host

/-- The worker has moved on and puts batches into the queue. -/
def worked (worker : σ) (batches : List (List Item))
    (host : Host Peer Item Key σ limit) : Host Peer Item Key σ limit :=
  { host with worker := worker, queue := host.queue ++ batches }

def heard (key : Item → Key) (pick : ℕ) (peer : Peer) (items : List Item)
    (host : Host Peer Item Key σ limit) : Host Peer Item Key σ limit :=
  { host with caches := noted key pick peer items host.caches }

end Host

namespace Network

def set (net : Network Peer Item Key σ limit) (peer : Peer)
    (host : Host Peer Item Key σ limit) : Network Peer Item Key σ limit :=
  { net with hosts := Function.update net.hosts peer host }

variable (workers : Workers σ Input Request Answer Item Outcome)
  (key : Item → Key)

def step (net : Network Peer Item Key σ limit) :
    Move Peer Input Request Answer →
      Network Peer Item Key σ limit × List (Report Peer Item Outcome)
  | .connect name peer =>
      let host := net.hosts name
      (net.set name { host with caches := host.caches.insert peer .empty }, [])
  | .act name input =>
      let host := net.hosts name
      let (worker, batches) := workers.act host.worker input
      (net.set name (host.worked worker batches), batches.map (.pushed name))
  | .broadcast name =>
      let host := net.hosts name
      match host.sending, host.queue with
      | [], batch :: rest =>
          let messages := recipients key batch host.caches
          (net.set name { host with queue := rest, sending := messages },
            messages.map fun message => .addressed (.of name message))
      | _, _ => (net, [])
  | .send name =>
      let host := net.hosts name
      match host.sending with
      | [] => (net, [])
      | message :: rest =>
          let net := net.set name { host with sending := rest }
          if message.2.all workers.encodes then
            ({ net with flight := net.flight ++ [.of name message] },
              [.sent (.of name message)])
          else (net, [])
  | .receive index pick answer =>
      match net.flight[index]? with
      | none => (net, [])
      | some envelope =>
          if envelope.items.all workers.encodes then
            let host := (net.hosts envelope.receiver).heard key pick
              envelope.sender envelope.items
            let (worker, batches, outcome) :=
              workers.take host.worker answer envelope.items
            ({ net.set envelope.receiver (host.worked worker batches) with
                flight := net.flight.eraseIdx index },
              .received envelope outcome ::
                batches.map (.pushed envelope.receiver))
          else ({ net with flight := net.flight.eraseIdx index }, [])
  | .fetch name peer request pick answer =>
      if name ≠ peer ∧ workers.asks (net.hosts name).worker then
        let (server, found) := workers.serve (net.hosts peer).worker request
        let net := net.set peer ((net.hosts peer).worked server [])
        match found.filter workers.encodes with
        | none => (net, [])
        | some item =>
            let host := (net.hosts name).heard key pick peer [item]
            let (worker, batches, outcome) :=
              workers.fetched host.worker answer item
            (net.set name (host.worked worker batches),
              .served peer item :: .fetched name peer item outcome ::
                batches.map (.pushed name))
      else (net, [])
  | .restart name answer =>
      (net.set name ⟨workers.restart (net.hosts name).worker answer, ∅, [],
        []⟩, [])
  | .lose index => ({ net with flight := net.flight.eraseIdx index }, [])

end Network

end Steps

namespace Report

variable {Peer Item Outcome : Type*}

def sent? : Report Peer Item Outcome → Option (Envelope Peer Item)
  | .sent envelope => some envelope
  | _ => none

def receipt? :
    Report Peer Item Outcome → Option (Envelope Peer Item × Outcome)
  | .received envelope outcome => some (envelope, outcome)
  | _ => none

variable [DecidableEq Peer]

def push? (name : Peer) : Report Peer Item Outcome → Option (List Item)
  | .pushed host batch => if host = name then some batch else none
  | _ => none

/-- The items that reach a host from a peer. -/
def heard (name peer : Peer) : Report Peer Item Outcome → List Item
  | .received envelope _ =>
      if envelope.receiver = name ∧ envelope.sender = peer then envelope.items
      else []
  | .fetched host source item _ =>
      if host = name ∧ source = peer then [item] else []
  | _ => []

end Report

section Reports

variable {Peer Item Outcome : Type*}

/-- The messages that were sent. -/
def messages (history : List (Report Peer Item Outcome)) :
    List (Envelope Peer Item) :=
  history.filterMap Report.sent?

@[simp] theorem messages_nil :
    messages ([] : List (Report Peer Item Outcome)) = [] := rfl

theorem messages_append (first second : List (Report Peer Item Outcome)) :
    messages (first ++ second) = messages first ++ messages second :=
  List.filterMap_append

@[simp] theorem messages_pushed (host : Peer) (batches : List (List Item)) :
    messages (batches.map (.pushed host) :
      List (Report Peer Item Outcome)) = [] := by
  simp [messages, List.filterMap_map, Function.comp_def, Report.sent?]

@[simp] theorem messages_addressed {α : Type*} (items : List α)
    (envelope : α → Envelope Peer Item) :
    messages (items.map fun item => .addressed (envelope item) :
      List (Report Peer Item Outcome)) = [] := by
  simp [messages, List.filterMap_map, Function.comp_def, Report.sent?]

@[simp] theorem messages_sent (envelope : Envelope Peer Item) :
    messages ([.sent envelope] : List (Report Peer Item Outcome)) =
      [envelope] := rfl

@[simp] theorem messages_received (envelope : Envelope Peer Item)
    (outcome : Outcome) (history : List (Report Peer Item Outcome)) :
    messages (.received envelope outcome :: history) = messages history := rfl

@[simp] theorem messages_fetched (host peer : Peer) (item : Item)
    (outcome : Outcome) (history : List (Report Peer Item Outcome)) :
    messages (.served peer item :: .fetched host peer item outcome ::
      history) = messages history := rfl

theorem mem_messages {envelope : Envelope Peer Item}
    {history : List (Report Peer Item Outcome)} :
    envelope ∈ messages history ↔ Report.sent envelope ∈ history := by
  constructor
  · intro member
    obtain ⟨report, reported, found⟩ := List.mem_filterMap.mp member
    cases report with
    | sent other =>
        cases found
        exact reported
    | _ => cases found
  · intro reported
    exact List.mem_filterMap.mpr ⟨_, reported, rfl⟩

/-- The messages that were received, with what became of them. -/
def receipts (history : List (Report Peer Item Outcome)) :
    List (Envelope Peer Item × Outcome) :=
  history.filterMap Report.receipt?

@[simp] theorem receipts_nil :
    receipts ([] : List (Report Peer Item Outcome)) = [] := rfl

theorem receipts_append (first second : List (Report Peer Item Outcome)) :
    receipts (first ++ second) = receipts first ++ receipts second :=
  List.filterMap_append

@[simp] theorem receipts_pushed (host : Peer) (batches : List (List Item)) :
    receipts (batches.map (.pushed host) :
      List (Report Peer Item Outcome)) = [] := by
  simp [receipts, List.filterMap_map, Function.comp_def, Report.receipt?]

@[simp] theorem receipts_addressed {α : Type*} (items : List α)
    (envelope : α → Envelope Peer Item) :
    receipts (items.map fun item => .addressed (envelope item) :
      List (Report Peer Item Outcome)) = [] := by
  simp [receipts, List.filterMap_map, Function.comp_def, Report.receipt?]

@[simp] theorem receipts_sent (envelope : Envelope Peer Item) :
    receipts ([.sent envelope] : List (Report Peer Item Outcome)) = [] := rfl

@[simp] theorem receipts_received (envelope : Envelope Peer Item)
    (outcome : Outcome) (history : List (Report Peer Item Outcome)) :
    receipts (.received envelope outcome :: history) =
      (envelope, outcome) :: receipts history := rfl

@[simp] theorem receipts_fetched (host peer : Peer) (item : Item)
    (outcome : Outcome) (history : List (Report Peer Item Outcome)) :
    receipts (.served peer item :: .fetched host peer item outcome ::
      history) = receipts history := rfl

theorem mem_receipts {envelope : Envelope Peer Item} {outcome : Outcome}
    {history : List (Report Peer Item Outcome)} :
    (envelope, outcome) ∈ receipts history ↔
      Report.received envelope outcome ∈ history := by
  constructor
  · intro member
    obtain ⟨report, reported, found⟩ := List.mem_filterMap.mp member
    cases report with
    | received other result =>
        cases found
        exact reported
    | _ => cases found
  · intro reported
    exact List.mem_filterMap.mpr ⟨_, reported, rfl⟩

variable [DecidableEq Peer]

/-- The batches a host has put into its queue. -/
def pushes (name : Peer) (history : List (Report Peer Item Outcome)) :
    List (List Item) :=
  history.filterMap (Report.push? name)

def heardFrom (name peer : Peer) (history : List (Report Peer Item Outcome)) :
    List Item :=
  history.flatMap (Report.heard name peer)

@[simp] theorem pushes_nil (name : Peer) :
    pushes name ([] : List (Report Peer Item Outcome)) = [] := rfl

@[simp] theorem heardFrom_nil (name peer : Peer) :
    heardFrom name peer ([] : List (Report Peer Item Outcome)) = [] := rfl

@[simp] theorem heardFrom_cons (name peer : Peer)
    (report : Report Peer Item Outcome)
    (history : List (Report Peer Item Outcome)) :
    heardFrom name peer (report :: history) =
      report.heard name peer ++ heardFrom name peer history :=
  List.flatMap_cons

theorem pushes_append (name : Peer)
    (first second : List (Report Peer Item Outcome)) :
    pushes name (first ++ second) = pushes name first ++ pushes name second :=
  List.filterMap_append

theorem heardFrom_append (name peer : Peer)
    (first second : List (Report Peer Item Outcome)) :
    heardFrom name peer (first ++ second) =
      heardFrom name peer first ++ heardFrom name peer second :=
  List.flatMap_append

@[simp] theorem pushes_received (name : Peer) (envelope : Envelope Peer Item)
    (outcome : Outcome) (history : List (Report Peer Item Outcome)) :
    pushes name (.received envelope outcome :: history) =
      pushes name history := rfl

@[simp] theorem pushes_fetched (name host peer : Peer) (item : Item)
    (outcome : Outcome) (history : List (Report Peer Item Outcome)) :
    pushes name (.served peer item :: .fetched host peer item outcome ::
      history) = pushes name history := rfl

@[simp] theorem pushes_pushed (name host : Peer) (batches : List (List Item)) :
    pushes name (batches.map (.pushed host) : List (Report Peer Item Outcome)) =
      if host = name then batches else [] := by
  split
  · rename_i same
    simp [pushes, List.filterMap_map, Function.comp_def, Report.push?, same]
  · rename_i other
    simp [pushes, List.filterMap_map, Function.comp_def, Report.push?, other]

@[simp] theorem heardFrom_pushed (name peer host : Peer)
    (batches : List (List Item)) :
    heardFrom name peer (batches.map (.pushed host) :
      List (Report Peer Item Outcome)) = [] := by
  simp [heardFrom, List.flatMap_map, Report.heard]

@[simp] theorem pushes_addressed {α : Type*} (name : Peer) (items : List α)
    (envelope : α → Envelope Peer Item) :
    pushes name (items.map fun item => .addressed (envelope item) :
      List (Report Peer Item Outcome)) = [] := by
  simp [pushes, List.filterMap_map, Function.comp_def, Report.push?]

@[simp] theorem heardFrom_addressed {α : Type*} (name peer : Peer)
    (items : List α) (envelope : α → Envelope Peer Item) :
    heardFrom name peer (items.map fun item => .addressed (envelope item) :
      List (Report Peer Item Outcome)) = [] := by
  simp [heardFrom, List.flatMap_map, Report.heard]

end Reports

section Effects

variable {Peer Item Key σ Input Request Answer Outcome : Type*} {limit : ℕ}
  [DecidableEq Peer]

theorem Network.hosts_set (net : Network Peer Item Key σ limit)
    (peer other : Peer) (host : Host Peer Item Key σ limit) :
    (net.set peer host).hosts other =
      if other = peer then host else net.hosts other :=
  Function.update_apply ..

/-- Replacing a host by one with the same worker keeps all workers. -/
theorem Network.worker_set (net : Network Peer Item Key σ limit) {peer : Peer}
    {host : Host Peer Item Key σ limit}
    (same : host.worker = (net.hosts peer).worker) (name : Peer) :
    ((net.set peer host).hosts name).worker = (net.hosts name).worker := by
  rw [hosts_set]
  split
  · rename_i here
    rw [here, same]
  · rfl

theorem Network.caches_served (net : Network Peer Item Key σ limit)
    (peer : Peer) (worker : σ) (name : Peer) :
    ((net.set peer ((net.hosts peer).worked worker [])).hosts name).caches =
      (net.hosts name).caches := by
  rw [hosts_set]
  split
  · rename_i same
    rw [same]
    rfl
  · rfl

theorem Network.queue_served (net : Network Peer Item Key σ limit)
    (peer : Peer) (worker : σ) (name : Peer) :
    ((net.set peer ((net.hosts peer).worked worker [])).hosts name).queue =
      (net.hosts name).queue := by
  rw [hosts_set]
  split
  · rename_i same
    rw [same]
    exact List.append_nil _
  · rfl

theorem Network.sending_served (net : Network Peer Item Key σ limit)
    (peer : Peer) (worker : σ) (name : Peer) :
    ((net.set peer ((net.hosts peer).worked worker [])).hosts name).sending =
      (net.hosts name).sending := by
  rw [hosts_set]
  split
  · rename_i same
    rw [same]
    rfl
  · rfl

variable [DecidableEq Key]

theorem mem_recipients {key : Item → Key} {batch : List Item}
    {caches : AList fun _ : Peer => Known Key limit}
    {message : Peer × List Item} :
    message ∈ recipients key batch caches ↔
      message.2 ≠ [] ∧ ∃ known, caches.lookup message.1 = some known ∧
        message.2 = unknown key known batch := by
  obtain ⟨receiver, items⟩ := message
  simp only [recipients, List.mem_filter, List.mem_map, Prod.mk.injEq,
    Bool.not_eq_true', List.isEmpty_eq_false_iff]
  constructor
  · rintro ⟨⟨⟨peer, known⟩, member, rfl, rfl⟩, nonempty⟩
    exact ⟨nonempty, known, AList.mem_lookup_iff.mpr member, rfl⟩
  · rintro ⟨nonempty, known, found, rfl⟩
    exact ⟨⟨⟨receiver, known⟩, AList.mem_lookup_iff.mp found, rfl, rfl⟩,
      nonempty⟩

variable [NeZero limit]

theorem lookup_noted (key : Item → Key) (pick : ℕ) (peer other : Peer)
    (items : List Item) (caches : AList fun _ : Peer => Known Key limit) :
    (noted key pick peer items caches).lookup other =
      (caches.lookup other).map fun known =>
        if peer = other then (items.map key).foldl (Known.mark pick) known
        else known := by
  unfold noted
  by_cases same : peer = other
  · subst same
    cases found : caches.lookup peer with
    | none => simp [found]
    | some known => simp
  · cases found : caches.lookup peer with
    | none => simp [same]
    | some known =>
        simp only [same, if_false]
        rw [AList.lookup_insert_ne (Ne.symm same)]
        simp

namespace Network

variable (workers : Workers σ Input Request Answer Item Outcome)
  (key : Item → Key) (net : Network Peer Item Key σ limit)

/-- What a step does to the cache of a host for a peer. -/
theorem lookup_step (move : Move Peer Input Request Answer)
    (name peer : Peer) :
    (∃ pick, ((net.step workers key move).1.hosts name).caches.lookup peer =
      ((net.hosts name).caches.lookup peer).map
        (((heardFrom name peer (net.step workers key move).2).map key).foldl
          (Known.mark pick))) ∨
    (move = .connect name peer ∧
      ((net.step workers key move).1.hosts name).caches.lookup peer =
        some .empty) ∨
    ((∃ answer, move = .restart name answer) ∧
      ((net.step workers key move).1.hosts name).caches.lookup peer =
        none) := by
  cases move with
  | connect host other =>
      by_cases same : name = host
      · subst same
        by_cases linked : peer = other
        · subst linked
          right; left
          simp [step, hosts_set]
        · left
          refine ⟨0, ?_⟩
          simp [step, hosts_set, AList.lookup_insert_ne linked]
      · left
        exact ⟨0, by simp [step, hosts_set, same]⟩
  | act host input =>
      left
      refine ⟨0, ?_⟩
      by_cases same : name = host
      · subst same
        simp [step, hosts_set, Host.worked]
      · simp [step, hosts_set, same]
  | broadcast host =>
      left
      refine ⟨0, ?_⟩
      simp only [step]
      split
      · by_cases same : name = host
        · subst same
          simp [hosts_set]
        · simp [hosts_set, same]
      · simp
  | send host =>
      left
      refine ⟨0, ?_⟩
      simp only [step]
      split
      · simp
      · by_cases same : name = host
        · subst same
          split <;> simp [hosts_set, Report.heard]
        · split <;> simp [hosts_set, same, Report.heard]
  | receive index pick answer =>
      left
      refine ⟨pick, ?_⟩
      simp only [step]
      split
      · simp
      · rename_i envelope _
        split
        · by_cases same : name = envelope.receiver
          · subst same
            by_cases origin : envelope.sender = peer
            · simp [hosts_set, Host.worked, Host.heard, lookup_noted, origin,
                Report.heard]
            · simp [hosts_set, Host.worked, Host.heard, lookup_noted, origin,
                Report.heard]
          · simp [hosts_set, same, Report.heard, Ne.symm same]
        · simp
  | fetch host other request pick answer =>
      left
      refine ⟨pick, ?_⟩
      simp only [step]
      split
      · have server := net.caches_served other
          (workers.serve (net.hosts other).worker request).1 name
        generalize net.set other _ = served at server ⊢
        split
        · simp [server]
        · by_cases same : name = host
          · subst same
            by_cases origin : other = peer
            · simp [hosts_set, Host.worked, Host.heard, lookup_noted, origin,
                Report.heard, server]
            · simp [hosts_set, Host.worked, Host.heard, lookup_noted, origin,
                Report.heard, server]
          · simp [hosts_set, same, Report.heard, Ne.symm same, server]
      · simp
  | restart host answer =>
      by_cases same : name = host
      · subst same
        right; right
        refine ⟨⟨answer, rfl⟩, ?_⟩
        simp [step, hosts_set]
      · left
        exact ⟨0, by simp [step, hosts_set, same]⟩
  | lose index =>
      left
      exact ⟨0, by simp [step]⟩

/-- What a step does to the queue of a host and to its unsent messages. -/
inductive Queues (name : Peer) :
    Move Peer Input Request Answer → List (List Item) →
      List (Peer × List Item) → List (Report Peer Item Outcome) → Prop
  | other {move : Move Peer Input Request Answer}
      {reports : List (Report Peer Item Outcome)}
      (silent : ∀ envelope, .sent envelope ∈ reports →
        envelope.sender ≠ name)
      (undecided : ∀ envelope, .addressed envelope ∈ reports →
        envelope.sender ≠ name) :
      Queues name move ((net.hosts name).queue ++ pushes name reports)
        (net.hosts name).sending reports
  | broadcast {batch : List Item} {rest : List (List Item)}
      (free : (net.hosts name).sending = [])
      (waiting : (net.hosts name).queue = batch :: rest) :
      Queues name (.broadcast name) rest
        (recipients key batch (net.hosts name).caches)
        ((recipients key batch (net.hosts name).caches).map fun message =>
          .addressed (.of name message))
  | sent {message : Peer × List Item} {rest : List (Peer × List Item)}
      (waiting : (net.hosts name).sending = message :: rest)
      (encodes : message.2.all workers.encodes = true) :
      Queues name (.send name) (net.hosts name).queue rest
        [.sent (.of name message)]
  | refused {message : Peer × List Item} {rest : List (Peer × List Item)}
      (waiting : (net.hosts name).sending = message :: rest)
      (unencodable : ¬ message.2.all workers.encodes = true) :
      Queues name (.send name) (net.hosts name).queue rest []
  | restart (answer : Answer) : Queues name (.restart name answer) [] [] []

omit [NeZero limit] in
/-- A step that leaves the queue and the unsent messages of a host alone. -/
theorem Queues.same {name : Peer} {move : Move Peer Input Request Answer}
    {queue : List (List Item)} {sending : List (Peer × List Item)}
    {reports : List (Report Peer Item Outcome)}
    (kept : queue = (net.hosts name).queue)
    (unsent : sending = (net.hosts name).sending)
    (pushed : pushes name reports = [])
    (silent : ∀ envelope, .sent envelope ∈ reports → envelope.sender ≠ name)
    (undecided : ∀ envelope, .addressed envelope ∈ reports →
      envelope.sender ≠ name) :
    Queues workers key net name move queue sending reports := by
  rw [kept, unsent, ← List.append_nil (net.hosts name).queue, ← pushed]
  exact .other silent undecided

theorem queue_step (move : Move Peer Input Request Answer) (name : Peer) :
    Queues workers key net name move
      ((net.step workers key move).1.hosts name).queue
      ((net.step workers key move).1.hosts name).sending
      (net.step workers key move).2 := by
  cases move with
  | connect host other =>
      by_cases same : name = host
      · subst same
        exact .same workers key net (by simp [step, hosts_set])
          (by simp [step, hosts_set]) rfl (by simp [step]) (by simp [step])
      · exact .same workers key net (by simp [step, hosts_set, same])
          (by simp [step, hosts_set, same]) rfl (by simp [step])
          (by simp [step])
  | act host input =>
      by_cases same : name = host
      · subst same
        have queue : ((net.step workers key (.act name input)).1.hosts
            name).queue = (net.hosts name).queue ++ pushes name
              (net.step workers key (.act name input)).2 := by
          simp [step, hosts_set, Host.worked]
        rw [queue]
        have sending : ((net.step workers key (.act name input)).1.hosts
            name).sending = (net.hosts name).sending := by
          simp [step, hosts_set, Host.worked]
        rw [sending]
        exact .other (by simp [step]) (by simp [step])
      · exact .same workers key net (by simp [step, hosts_set, same])
          (by simp [step, hosts_set, same]) (by simp [step, Ne.symm same])
          (by simp [step]) (by simp [step])
  | broadcast host =>
      simp only [step]
      split
      · rename_i batch rest free waiting
        by_cases same : name = host
        · subst same
          simp only [hosts_set, if_true]
          exact .broadcast free waiting
        · refine .same workers key net (by simp [hosts_set, same])
            (by simp [hosts_set, same]) (by simp) (by simp) ?_
          intro envelope member
          obtain ⟨message, _, made⟩ := List.mem_map.mp member
          cases made
          exact Ne.symm same
      · exact .same workers key net rfl rfl rfl (by simp) (by simp)
  | send host =>
      simp only [step]
      split
      · exact .same workers key net rfl rfl rfl (by simp) (by simp)
      · rename_i message rest waiting
        by_cases same : name = host
        · subst same
          split
          · rename_i encodes
            simp only [hosts_set, if_true]
            exact .sent waiting encodes
          · rename_i unencodable
            simp only [hosts_set, if_true]
            exact .refused waiting unencodable
        · split
          · refine .same workers key net (by simp [hosts_set, same])
              (by simp [hosts_set, same]) rfl ?_ (by simp)
            intro envelope member
            cases List.mem_singleton.mp member
            exact Ne.symm same
          · exact .same workers key net (by simp [hosts_set, same])
              (by simp [hosts_set, same]) rfl (by simp) (by simp)
  | receive index pick answer =>
      simp only [step]
      split
      · exact .same workers key net rfl rfl rfl (by simp) (by simp)
      · rename_i envelope _
        split
        · by_cases same : name = envelope.receiver
          · subst same
            simp only [hosts_set, if_true, Host.worked, Host.heard]
            have pushed : pushes envelope.receiver
                (Report.received envelope (workers.take
                    (net.hosts envelope.receiver).worker answer
                      envelope.items).2.2 ::
                  (workers.take (net.hosts envelope.receiver).worker answer
                    envelope.items).2.1.map (.pushed envelope.receiver)) =
                (workers.take (net.hosts envelope.receiver).worker answer
                  envelope.items).2.1 := by
              simp
            nth_rewrite 1 [← pushed]
            exact .other (by simp) (by simp)
          · exact .same workers key net (by simp [hosts_set, same])
              (by simp [hosts_set, same]) (by simp [Ne.symm same]) (by simp)
              (by simp)
        · exact .same workers key net rfl rfl rfl (by simp) (by simp)
  | fetch host other request pick answer =>
      simp only [step]
      split
      · have queue := net.queue_served other
          (workers.serve (net.hosts other).worker request).1 name
        have sending := net.sending_served other
          (workers.serve (net.hosts other).worker request).1 name
        generalize net.set other _ = served at queue sending ⊢
        split
        · exact .same workers key net queue sending rfl (by simp) (by simp)
        · rename_i item _
          by_cases same : name = host
          · subst same
            simp only [hosts_set, if_true, Host.worked, Host.heard, queue,
              sending]
            have pushed : pushes name (Report.served other item ::
                .fetched name other item (workers.fetched
                  (served.hosts name).worker answer item).2.2 ::
                  (workers.fetched (served.hosts name).worker answer
                    item).2.1.map (.pushed name)) =
                (workers.fetched (served.hosts name).worker answer
                  item).2.1 := by
              simp
            nth_rewrite 1 [← pushed]
            exact .other (by simp) (by simp)
          · exact .same workers key net (by simp [hosts_set, same, queue])
              (by simp [hosts_set, same, sending]) (by simp [Ne.symm same])
              (by simp) (by simp)
      · exact .same workers key net rfl rfl rfl (by simp) (by simp)
  | restart host answer =>
      by_cases same : name = host
      · subst same
        simp only [step, hosts_set, if_true]
        exact .restart answer
      · exact .same workers key net (by simp [step, hosts_set, same])
          (by simp [step, hosts_set, same]) rfl (by simp [step])
          (by simp [step])
  | lose index =>
      exact .same workers key net rfl rfl rfl (by simp [step]) (by simp [step])

/-- What a step does to the messages on their way. -/
theorem flight_step (move : Move Peer Input Request Answer) :
    ((net.step workers key move).1.flight =
        net.flight ++ messages (net.step workers key move).2 ∧
      receipts (net.step workers key move).2 = []) ∨
    (∃ index envelope outcome, net.flight[index]? = some envelope ∧
      (net.step workers key move).1.flight = net.flight.eraseIdx index ∧
      receipts (net.step workers key move).2 = [(envelope, outcome)]) ∨
    (∃ index, (move = .lose index ∨ ∃ envelope,
        net.flight[index]? = some envelope ∧
          ¬ envelope.items.all workers.encodes = true) ∧
      (net.step workers key move).1.flight = net.flight.eraseIdx index ∧
      (net.step workers key move).2 = []) := by
  cases move with
  | connect host other =>
      left
      simp [step, set]
  | act host input =>
      left
      simp [step, set]
  | broadcast host =>
      left
      simp only [step]
      split <;> simp [set]
  | send host =>
      left
      simp only [step]
      split
      · simp
      · split <;> simp [set]
  | receive index pick answer =>
      simp only [step]
      split
      · left
        simp
      · rename_i envelope found
        split
        · right; left
          exact ⟨index, envelope, _, found, rfl, by
            rw [receipts_received, receipts_pushed]⟩
        · rename_i unreadable
          right; right
          exact ⟨index, .inr ⟨envelope, found, unreadable⟩, rfl, rfl⟩
  | fetch host other request pick answer =>
      left
      simp only [step]
      split
      · split <;> simp [set]
      · simp
  | restart host answer =>
      left
      simp [step, set]
  | lose index =>
      right; right
      exact ⟨index, .inl rfl, rfl, rfl⟩

/-- What a step does to the worker of a host, with the reports of the step. -/
inductive Works (name : Peer) :
    Move Peer Input Request Answer → σ → List (Report Peer Item Outcome) → Prop
  | idle {move : Move Peer Input Request Answer}
      {reports : List (Report Peer Item Outcome)}
      (silent : pushes name reports = [])
      (unasked : ∀ item, .served name item ∉ reports)
      (deaf : ∀ envelope outcome, .received envelope outcome ∈ reports →
        envelope.receiver ≠ name) :
      Works name move (net.hosts name).worker reports
  | act (input : Input) :
      Works name (.act name input)
        (workers.act (net.hosts name).worker input).1
        ((workers.act (net.hosts name).worker input).2.map (.pushed name))
  | take (index pick : ℕ) (answer : Answer) {envelope : Envelope Peer Item}
      (travelling : envelope ∈ net.flight)
      (encodes : ∀ item ∈ envelope.items, workers.encodes item = true)
      (mine : envelope.receiver = name) :
      Works name (.receive index pick answer)
        (workers.take (net.hosts name).worker answer envelope.items).1
        (.received envelope (workers.take (net.hosts name).worker answer
            envelope.items).2.2 ::
          (workers.take (net.hosts name).worker answer
            envelope.items).2.1.map (.pushed name))
  | serve (host : Peer) (request : Request) (pick : ℕ) (answer : Answer)
      {reports : List (Report Peer Item Outcome)}
      (silent : pushes name reports = [])
      (served : ∀ item, .served name item ∈ reports →
        (workers.serve (net.hosts name).worker request).2 = some item ∧
          workers.encodes item = true)
      (deaf : receipts reports = []) :
      Works name (.fetch host name request pick answer)
        (workers.serve (net.hosts name).worker request).1 reports
  | fetch {peer : Peer} (request : Request) (pick : ℕ) (answer : Answer)
      (item : Item) (encodes : workers.encodes item = true)
      (other : name ≠ peer) :
      Works name (.fetch name peer request pick answer)
        (workers.fetched (net.hosts name).worker answer item).1
        (.served peer item :: .fetched name peer item
            (workers.fetched (net.hosts name).worker answer item).2.2 ::
          (workers.fetched (net.hosts name).worker answer item).2.1.map
            (.pushed name))
  | restart (answer : Answer) :
      Works name (.restart name answer)
        (workers.restart (net.hosts name).worker answer) []

theorem works_step (move : Move Peer Input Request Answer) (name : Peer) :
    Works workers net name move
      ((net.step workers key move).1.hosts name).worker
      (net.step workers key move).2 := by
  cases move with
  | connect host other =>
      simp only [step]
      rw [net.worker_set]
      · exact .idle rfl (by simp) (by simp)
      · rfl
  | act host input =>
      by_cases mine : name = host
      · subst mine
        simp only [step, hosts_set, if_true]
        exact .act input
      · simp only [step, hosts_set, mine, if_false]
        exact .idle (by simp [Ne.symm mine]) (by simp) (by simp)
  | broadcast host =>
      simp only [step]
      split
      · rw [net.worker_set]
        · exact .idle (by simp) (by simp) (by simp)
        · rfl
      · exact .idle rfl (by simp) (by simp)
  | send host =>
      simp only [step]
      split
      · exact .idle rfl (by simp) (by simp)
      · split
        · simp only [net.worker_set]
          exact .idle rfl (by simp) (by simp)
        · simp only [net.worker_set]
          exact .idle rfl (by simp) (by simp)
  | receive index pick answer =>
      simp only [step]
      split
      · exact .idle rfl (by simp) (by simp)
      · rename_i envelope found
        split
        · rename_i encodes
          by_cases mine : name = envelope.receiver
          · subst mine
            simp only [hosts_set, if_true]
            exact .take index pick answer (List.mem_of_getElem? found)
              (List.all_eq_true.mp encodes) rfl
          · simp only [hosts_set, mine, if_false]
            apply Works.idle
            · simp [Ne.symm mine]
            · simp
            · intro other outcome reported
              simp only [List.mem_cons, List.mem_map, reduceCtorEq, and_false,
                exists_false, or_false, Report.received.injEq] at reported
              rw [reported.1]
              exact Ne.symm mine
        · exact .idle rfl (by simp) (by simp)
  | fetch host other request pick answer =>
      simp only [step]
      split
      · rename_i asks
        split
        · rename_i found
          by_cases server : name = other
          · subst server
            simp only [hosts_set, if_true]
            exact .serve host request pick answer rfl (by simp) rfl
          · simp only [hosts_set, server, if_false]
            exact .idle rfl (by simp) (by simp)
        · rename_i item found
          by_cases mine : name = host
          · subst mine
            simp only [hosts_set, if_true, asks.1, if_false]
            exact .fetch request pick answer item
              (Option.filter_eq_some_iff.mp found).2 asks.1
          · by_cases server : name = other
            · subst server
              simp only [hosts_set, mine, if_true, if_false]
              apply Works.serve
              · simp [Ne.symm mine]
              · intro other reported
                simp at reported
                rw [reported]
                exact Option.filter_eq_some_iff.mp found
              · simp
            · simp only [hosts_set, mine, server, if_false]
              apply Works.idle
              · simp [Ne.symm mine]
              · simp [server]
              · simp
      · exact .idle rfl (by simp) (by simp)
  | restart host answer =>
      by_cases mine : name = host
      · subst mine
        simp only [step, hosts_set, if_true]
        exact .restart answer
      · simp only [step, hosts_set, mine, if_false]
        exact .idle rfl (by simp) (by simp)
  | lose index => exact .idle rfl (by simp [step]) (by simp [step])

/-- What is heard from a peer was on its way or has been served by it. -/
theorem heard_step {move : Move Peer Input Request Answer}
    {name peer : Peer} {item : Item}
    (heard : item ∈ heardFrom name peer (net.step workers key move).2) :
    (∃ envelope ∈ net.flight, envelope.sender = peer ∧
      envelope.receiver = name ∧ item ∈ envelope.items) ∨
    (workers.encodes item = true ∧
      Report.served peer item ∈ (net.step workers key move).2) := by
  cases move with
  | receive index pick answer =>
      left
      simp only [step] at heard
      split at heard
      · simp at heard
      · rename_i envelope found
        split at heard
        · simp only [heardFrom_cons, heardFrom_pushed, List.append_nil,
            Report.heard] at heard
          split at heard
          · rename_i between
            exact ⟨envelope, List.mem_of_getElem? found, between.2, between.1,
              heard⟩
          · cases heard
        · simp at heard
  | fetch host other request pick answer =>
      right
      simp only [step] at heard ⊢
      split at heard
      · rename_i asks
        rw [if_pos asks]
        split at heard
        · simp at heard
        · rename_i found
          simp only [heardFrom_cons, heardFrom_pushed, List.append_nil,
            Report.heard, List.nil_append] at heard
          split at heard
          · rename_i between
            cases List.mem_singleton.mp heard
            rw [between.2]
            exact ⟨(Option.filter_eq_some_iff.mp found).2, List.mem_cons_self⟩
          · cases heard
      · simp at heard
  | broadcast host =>
      simp only [step] at heard
      split at heard <;> simp at heard
  | send host =>
      simp only [step] at heard
      split at heard
      · simp at heard
      · split at heard <;> simp [Report.heard] at heard
  | _ => simp [step] at heard

end Network

end Effects

end Plasma.Lib.Gossip
