import Plasma.Lib.GossipRun

/-!
# Flooding into stores

The workers of a network keep what they take in.  Along a run without losses
an item then reaches every host that is linked to one that has it, unless a
host on the way refuses it.  An item that cannot be encoded may be put into a
queue without being held.
-/

namespace Plasma.Lib.Gossip

variable {Peer Item Key σ Input Request Answer Outcome : Type*} {limit : ℕ}

/-- A worker moves on: it keeps what it holds, holds what it puts into the
queue and can encode, and gains nothing else. -/
structure Grows (encodes : Item → Bool) (key : Item → Key) (Good : σ → Prop)
    (Holds : σ → Key → Prop) (worker next : σ)
    (batches : List (List Item)) : Prop where
  good : Good next
  kept : ∀ mark, Holds worker mark → Holds next mark
  pushed : ∀ batch ∈ batches, ∀ item ∈ batch, encodes item = true →
    Holds next (key item)
  gained : ∀ mark, Holds next mark → Holds worker mark ∨
    ∃ batch ∈ batches, batch.all encodes = true ∧
      ∃ item ∈ batch, key item = mark

namespace Grows

variable {encodes : Item → Bool} {key : Item → Key} {Good : σ → Prop}
  {Holds : σ → Key → Prop} {worker next last : σ} {batches more : List (List Item)}

theorem refl (good : Good worker) :
    Grows encodes key Good Holds worker worker ([] : List (List Item)) where
  good := good
  kept := fun _ holds => holds
  pushed := by simp
  gained := fun _ holds => .inl holds

theorem trans (first : Grows encodes key Good Holds worker next batches)
    (second : Grows encodes key Good Holds next last more) :
    Grows encodes key Good Holds worker last (batches ++ more) where
  good := second.good
  kept := fun mark holds => second.kept mark (first.kept mark holds)
  pushed := by
    intro batch member item part encodable
    rcases List.mem_append.mp member with early | late
    · exact second.kept _ (first.pushed batch early item part encodable)
    · exact second.pushed batch late item part encodable
  gained := by
    intro mark holds
    rcases second.gained mark holds with before | ⟨batch, member, part⟩
    · rcases first.gained mark before with initial | ⟨batch, member, part⟩
      · exact .inl initial
      · exact .inr ⟨batch, List.mem_append_left _ member, part⟩
    · exact .inr ⟨batch, List.mem_append_right _ member, part⟩

/-- An item that is held, if it can be encoded, is put into the queue once
more. -/
theorem repeated (grows : Grows encodes key Good Holds worker next batches)
    {item : Item} (holds : encodes item = true → Holds next (key item)) :
    Grows encodes key Good Holds worker next (batches ++ [[item]]) := by
  refine grows.trans ⟨grows.good, fun _ holds => holds, ?_,
    fun _ holds => .inl holds⟩
  intro batch member other part
  cases List.mem_singleton.mp member
  cases List.mem_singleton.mp part
  exact holds

end Grows

/-- The workers keep what they take in, apart from messages they refuse, and
serve what they hold. -/
structure Workers.Store (workers : Workers σ Input Request Answer Item Outcome)
    (key : Item → Key) (Good : σ → Prop) (Holds : σ → Key → Prop)
    (Refused : Item → Outcome → Prop) (Allowed : σ → Input → Prop)
    (Answered : Answer → Prop) : Prop where
  act : ∀ worker input, Good worker → Allowed worker input →
    Grows workers.encodes key Good Holds worker (workers.act worker input).1
      (workers.act worker input).2
  take : ∀ worker answer items, Good worker → Answered answer →
    (∀ item ∈ items, workers.encodes item = true) →
    Grows workers.encodes key Good Holds worker
        (workers.take worker answer items).1
        (workers.take worker answer items).2.1 ∧
      ∀ item ∈ items,
        Holds (workers.take worker answer items).1 (key item) ∨
          Refused item (workers.take worker answer items).2.2
  serve : ∀ worker request, Good worker →
    Grows workers.encodes key Good Holds worker
        (workers.serve worker request).1 [] ∧
      ∀ item, (workers.serve worker request).2 = some item →
        workers.encodes item = true →
          Holds (workers.serve worker request).1 (key item)
  fetched : ∀ worker answer item, Good worker → Answered answer →
    workers.encodes item = true →
    Grows workers.encodes key Good Holds worker
      (workers.fetched worker answer item).1
      (workers.fetched worker answer item).2.1
  restart : ∀ worker answer, Good worker → Answered answer →
    Good (workers.restart worker answer) ∧
      ∀ mark, Holds worker mark → Holds (workers.restart worker answer) mark

/-- What the worker of a host is asked to do meets the assumptions. -/
def Network.Admits (Allowed : σ → Input → Prop) (Answered : Answer → Prop)
    (net : Network Peer Item Key σ limit) :
    Move Peer Input Request Answer → Prop
  | .act name input => Allowed (net.hosts name).worker input
  | .receive _ _ answer => Answered answer
  | .fetch _ _ _ _ answer => Answered answer
  | .restart _ answer => Answered answer
  | _ => True

instance (Allowed : σ → Input → Prop) (Answered : Answer → Prop)
    [∀ worker, DecidablePred (Allowed worker)] [DecidablePred Answered]
    (net : Network Peer Item Key σ limit)
    (move : Move Peer Input Request Answer) :
    Decidable (net.Admits Allowed Answered move) :=
  match move with
  | .act name input =>
      inferInstanceAs (Decidable (Allowed (net.hosts name).worker input))
  | .receive _ _ answer => inferInstanceAs (Decidable (Answered answer))
  | .fetch _ _ _ _ answer => inferInstanceAs (Decidable (Answered answer))
  | .restart _ answer => inferInstanceAs (Decidable (Answered answer))
  | .connect _ _ | .broadcast _ | .send _ | .lose _ => .isTrue trivial

variable [DecidableEq Peer]

/-- The workers hold what they have offered, if it can be encoded, and what
they have received. -/
structure Held (encodes : Item → Bool) (key : Item → Key) (Good : σ → Prop)
    (Holds : σ → Key → Prop) (Refused : Item → Outcome → Prop)
    (net : Network Peer Item Key σ limit)
    (history : List (Report Peer Item Outcome)) : Prop where
  good : ∀ name, Good (net.hosts name).worker
  offered : ∀ name item, Offers history name item → encodes item = true →
    Holds (net.hosts name).worker (key item)
  received : ∀ envelope outcome, Report.received envelope outcome ∈ history →
    ∀ item ∈ envelope.items,
      Holds (net.hosts envelope.receiver).worker (key item) ∨
        Refused item outcome

/-- What the reports of a step say about the worker of a host.  Only a start of
its process may add what the host has not put into its queue. -/
structure Advances (encodes : Item → Bool) (key : Item → Key)
    (Good : σ → Prop) (Holds : σ → Key → Prop)
    (Refused : Item → Outcome → Prop) (started : Prop) (worker next : σ)
    (name : Peer) (reports : List (Report Peer Item Outcome)) : Prop where
  good : Good next
  kept : ∀ mark, Holds worker mark → Holds next mark
  offered : ∀ item, Offers reports name item → encodes item = true →
    Holds next (key item)
  received : ∀ envelope outcome, Report.received envelope outcome ∈ reports →
    envelope.receiver = name → ∀ item ∈ envelope.items,
      Holds next (key item) ∨ Refused item outcome
  gained : ¬ started → ∀ mark, Holds next mark → Holds worker mark ∨
    ∃ batch ∈ pushes name reports, batch.all encodes = true ∧
      ∃ item ∈ batch, key item = mark

section Offers

@[simp] theorem not_offers_nil (name : Peer) (item : Item) :
    ¬ Offers ([] : List (Report Peer Item Outcome)) name item := by
  simp [Offers]

@[simp] theorem offers_pushed (host name : Peer) (batches : List (List Item))
    (item : Item) :
    Offers (batches.map (.pushed host) : List (Report Peer Item Outcome)) name
        item ↔
      host = name ∧ ∃ batch ∈ batches, item ∈ batch := by
  by_cases same : host = name <;> simp [Offers, same]

@[simp] theorem offers_received (envelope : Envelope Peer Item)
    (outcome : Outcome) (reports : List (Report Peer Item Outcome))
    (name : Peer) (item : Item) :
    Offers (.received envelope outcome :: reports) name item ↔
      Offers reports name item := by
  simp [Offers]

@[simp] theorem offers_fetched (host peer : Peer) (found : Item)
    (outcome : Outcome) (reports : List (Report Peer Item Outcome))
    (name : Peer) (item : Item) :
    Offers (.served peer found :: .fetched host peer found outcome :: reports)
        name item ↔
      (name = peer ∧ item = found) ∨ Offers reports name item := by
  simp only [Offers, pushes_fetched, List.mem_cons, Report.served.injEq,
    reduceCtorEq, false_or]
  exact or_left_comm

end Offers

section Steps

variable {encodes : Item → Bool} {key : Item → Key} {Good : σ → Prop}
  {Holds : σ → Key → Prop} {Refused : Item → Outcome → Prop}
  {Allowed : σ → Input → Prop} {Answered : Answer → Prop}

/-- A host that reports nothing stays as it is. -/
theorem Advances.same {started : Prop} {worker : σ} (good : Good worker)
    {name : Peer}
    {reports : List (Report Peer Item Outcome)}
    (silent : ∀ item, ¬ Offers reports name item)
    (deaf : ∀ envelope outcome,
      Report.received envelope outcome ∈ reports →
        envelope.receiver ≠ name) :
    Advances encodes key Good Holds Refused started worker worker name
      reports where
  good := good
  kept := fun _ holds => holds
  offered := fun item offers => absurd offers (silent item)
  received := fun envelope outcome reported goal =>
    absurd goal (deaf envelope outcome reported)
  gained := fun _ _ holds => .inl holds

theorem Grows.advances {started : Prop} {worker next : σ}
    {batches : List (List Item)}
    (grows : Grows encodes key Good Holds worker next batches) (name : Peer) :
    Advances encodes key Good Holds Refused started worker next name
      (batches.map (.pushed name) : List (Report Peer Item Outcome)) where
  good := grows.good
  kept := grows.kept
  offered := by
    intro item offers encodable
    obtain ⟨_, batch, pushed, part⟩ := (offers_pushed ..).mp offers
    exact grows.pushed batch pushed item part encodable
  received := by
    intro envelope outcome reported
    simp at reported
  gained := by
    intro _ mark holds
    rw [pushes_pushed, if_pos rfl]
    exact grows.gained mark holds

variable [DecidableEq Key] [NeZero limit]
  {workers : Workers σ Input Request Answer Item Outcome}
  {net : Network Peer Item Key σ limit}

theorem advances_step
    (store : workers.Store key Good Holds Refused Allowed Answered)
    {move : Move Peer Input Request Answer}
    (admitted : net.Admits Allowed Answered move) {name : Peer}
    (good : Good (net.hosts name).worker) :
    Advances workers.encodes key Good Holds Refused (¬ move.Keeps)
      (net.hosts name).worker ((net.step workers key move).1.hosts name).worker name
      (net.step workers key move).2 := by
  have works := net.works_step workers key move name
  generalize ((net.step workers key move).1.hosts name).worker = next,
    (net.step workers key move).2 = reports at works ⊢
  cases works with
  | idle silent unasked deaf =>
      refine .same good ?_ deaf
      rintro item (⟨batch, pushed, _⟩ | served)
      · rw [silent] at pushed
        cases pushed
      · exact unasked item served
  | act input => exact (store.act _ input good admitted).advances name
  | take index pick answer travelling encodes mine =>
      obtain ⟨grows, taken⟩ := store.take _ answer _ good admitted encodes
      refine ⟨grows.good, grows.kept, ?_, ?_, ?_⟩
      · intro item offers encodable
        obtain ⟨_, batch, pushed, part⟩ :=
          (offers_pushed ..).mp ((offers_received ..).mp offers)
        exact grows.pushed batch pushed item part encodable
      · intro other outcome reported _
        simp only [List.mem_cons, List.mem_map, reduceCtorEq, and_false,
          exists_false, or_false, Report.received.injEq] at reported
        obtain ⟨rfl, rfl⟩ := reported
        exact taken
      · intro _ mark holds
        rw [pushes_received, pushes_pushed, if_pos rfl]
        exact grows.gained mark holds
  | serve host request pick answer silent served deaf =>
      obtain ⟨grows, holds⟩ := store.serve _ request good
      refine ⟨grows.good, grows.kept, ?_, ?_, ?_⟩
      · rintro item (⟨batch, pushed, _⟩ | reported)
        · rw [silent] at pushed
          cases pushed
        · intro encodable
          exact holds item (served item reported).1 encodable
      · intro envelope outcome reported
        have member := mem_receipts.mpr reported
        rw [deaf] at member
        cases member
      · intro _ mark holds
        rcases grows.gained mark holds with before | ⟨_, pushed, _⟩
        · exact .inl before
        · cases pushed
  | fetch request pick answer item encodes other =>
      have grows := store.fetched _ answer item good admitted encodes
      refine ⟨grows.good, grows.kept, ?_, ?_, ?_⟩
      · intro found offers encodable
        rcases (offers_fetched ..).mp offers with ⟨same, _⟩ | pushed
        · exact absurd same other
        · obtain ⟨_, batch, pushed, part⟩ := (offers_pushed ..).mp pushed
          exact grows.pushed batch pushed found part encodable
      · intro envelope outcome reported
        simp at reported
      · intro _ mark holds
        rw [pushes_fetched, pushes_pushed, if_pos rfl]
        exact grows.gained mark holds
  | restart answer =>
      obtain ⟨fine, kept⟩ := store.restart _ answer good admitted
      refine ⟨fine, kept, by simp, by simp, ?_⟩
      intro keeps
      exact absurd id keeps

theorem Held.step {history : List (Report Peer Item Outcome)}
    (store : workers.Store key Good Holds Refused Allowed Answered)
    (held : Held workers.encodes key Good Holds Refused net history)
    {move : Move Peer Input Request Answer}
    (admitted : net.Admits Allowed Answered move) :
    Held workers.encodes key Good Holds Refused (net.step workers key move).1
      (history ++ (net.step workers key move).2) where
  good := by
    intro name
    exact (advances_step store admitted (held.good name)).good
  offered := by
    intro name item offers encodable
    have advances := advances_step store admitted (held.good name)
    rcases offers with ⟨batch, pushed, part⟩ | served
    · rw [pushes_append] at pushed
      rcases List.mem_append.mp pushed with earlier | new
      · exact advances.kept _
          (held.offered name item (.inl ⟨batch, earlier, part⟩) encodable)
      · exact advances.offered item (.inl ⟨batch, new, part⟩) encodable
    · rcases List.mem_append.mp served with earlier | new
      · exact advances.kept _
          (held.offered name item (.inr earlier) encodable)
      · exact advances.offered item (.inr new) encodable
  received := by
    intro envelope outcome reported
    have advances := advances_step store admitted
      (held.good envelope.receiver)
    rcases List.mem_append.mp reported with earlier | new
    · intro item carried
      rcases held.received envelope outcome earlier item carried with
        holds | refused
      · exact .inl (advances.kept _ holds)
      · exact .inr refused
    · exact advances.received envelope outcome new rfl

omit [DecidableEq Key] [NeZero limit] in
theorem Held.initially (good : ∀ name, Good (net.hosts name).worker) :
    Held encodes key Good Holds Refused net
      ([] : List (Report Peer Item Outcome)) where
  good := good
  offered := fun name item offers => absurd offers (not_offers_nil name item)
  received := by
    intro envelope outcome reported
    cases reported

theorem held_run
    (store : workers.Store key Good Holds Refused Allowed Answered)
    (good : ∀ name, Good (net.hosts name).worker)
    {moves : List (Move Peer Input Request Answer)}
    (admitted : StepsMeet (Network.step workers key)
      (Network.Admits Allowed Answered) net moves) :
    Held workers.encodes key Good Holds Refused
      (execute (Network.step workers key) net moves).1
      (execute (Network.step workers key) net moves).2 := by
  refine execute_induction (Network.step workers key)
    (Network.Admits Allowed Answered)
    (fun _ net history =>
      Held workers.encodes key Good Holds Refused net history) ?_
    (.initially good) admitted
  intro _ net history move held admitted
  exact held.step store admitted

/-- What a host holds it held at the start or has put into its queue. -/
def Pushed (encodes : Item → Bool) (key : Item → Key) (Holds : σ → Key → Prop)
    (start net : Network Peer Item Key σ limit)
    (history : List (Report Peer Item Outcome)) : Prop :=
  ∀ name mark, Holds (net.hosts name).worker mark →
    Holds (start.hosts name).worker mark ∨
      ∃ batch ∈ pushes name history, batch.all encodes = true ∧
        ∃ item ∈ batch, key item = mark

theorem pushed_run
    (store : workers.Store key Good Holds Refused Allowed Answered)
    (good : ∀ name, Good (net.hosts name).worker)
    {moves : List (Move Peer Input Request Answer)}
    (admitted : StepsMeet (Network.step workers key)
      (Network.Admits Allowed Answered) net moves)
    (keeps : ∀ move ∈ moves, move.Keeps) :
    Pushed workers.encodes key Holds net
      (execute (Network.step workers key) net moves).1
      (execute (Network.step workers key) net moves).2 := by
  refine (execute_induction (Network.step workers key)
    (fun net move => net.Admits Allowed Answered move ∧ move.Keeps)
    (fun _ reached history =>
      Held workers.encodes key Good Holds Refused reached history ∧
        Pushed workers.encodes key Holds net reached history) ?_
    ⟨.initially good, fun _ _ holds => .inl holds⟩
    (admitted.and (stepsMeet_of_forall
      (fun move member _ => keeps move member) net))).2
  rintro _ reached history move ⟨held, pushed⟩ ⟨admitted, keeps⟩
  refine ⟨held.step store admitted, ?_⟩
  intro name mark holds
  rw [pushes_append]
  rcases (advances_step store admitted (held.good name)).gained
      (not_not.mpr keeps) mark holds with
    before | ⟨batch, new, part⟩
  · rcases pushed name mark before with initial | ⟨batch, earlier, part⟩
    · exact .inl initial
    · exact .inr ⟨batch, List.mem_append_left _ earlier, part⟩
  · exact .inr ⟨batch, List.mem_append_right _ new, part⟩

/-- An item that nobody held at the start reaches every host linked to one
that holds it, or one of these hosts has refused it. -/
theorem flood_reaches
    (store : workers.Store key Good Holds Refused Allowed Answered)
    (fresh : net.Fresh) (good : ∀ name, Good (net.hosts name).worker)
    {moves : List (Move Peer Input Request Answer)}
    (admitted : StepsMeet (Network.step workers key)
      (Network.Admits Allowed Answered) net moves)
    (keeps : ∀ move ∈ moves, move.Keeps)
    (quiet : (execute (Network.step workers key) net moves).1.Quiet)
    {mark : Key} (new : ∀ name, ¬ Holds (net.hosts name).worker mark)
    {source target : Peer}
    (path : Relation.ReflTransGen net.Linked source target)
    (holds : Holds ((execute (Network.step workers key) net moves).1.hosts
      source).worker mark) :
    Holds ((execute (Network.step workers key) net moves).1.hosts
        target).worker mark ∨
      ∃ envelope outcome item,
        Report.received envelope outcome ∈
            (execute (Network.step workers key) net moves).2 ∧
          Relation.ReflTransGen net.Linked source envelope.receiver ∧
          item ∈ envelope.items ∧ key item = mark ∧
          Refused item outcome := by
  have held := held_run store good admitted
  have pushed := pushed_run store good admitted keeps
  have spread : Spread workers.encodes key net
      (execute (Network.step workers key) net moves).1
      (execute (Network.step workers key) net moves).2 :=
    spread_run fresh keeps
  generalize execute (Network.step workers key) net moves = final at *
  induction path with
  | refl => exact .inl holds
  | tail path link induction =>
      rcases induction with reached | refused
      · rename_i middle target
        rcases pushed middle mark reached with
          initial | ⟨batch, waiting, encodable, item, part, rfl⟩
        · exact absurd initial (new middle)
        rcases spread.delivered quiet link waiting encodable part with
          ⟨envelope, outcome, reported, rfl, carried⟩ |
            ⟨other, same, encodes, offers⟩
        · rcases held.received envelope outcome reported item carried with
            holds | refused
          · exact .inl holds
          · exact .inr ⟨envelope, outcome, item, reported, path.tail link,
              carried, rfl, refused⟩
        · rw [← same]
          exact .inl (held.offered target other offers encodes)
      · exact .inr refused

/-! ## Invariants of a worker and its batches -/

/-- A relation between a worker and the batches it has put into its queue that
every call keeps. -/
structure Workers.Keeps (workers : Workers σ Input Request Answer Item Outcome)
    (Inv : σ → List (List Item) → Prop) (Allowed : σ → Input → Prop)
    (Answered : Answer → Prop) : Prop where
  act : ∀ worker input done, Inv worker done → Allowed worker input →
    Inv (workers.act worker input).1 (done ++ (workers.act worker input).2)
  take : ∀ worker answer items done, Inv worker done → Answered answer →
    (∀ item ∈ items, workers.encodes item = true) →
    Inv (workers.take worker answer items).1
      (done ++ (workers.take worker answer items).2.1)
  serve : ∀ worker request done, Inv worker done →
    Inv (workers.serve worker request).1 done
  fetched : ∀ worker answer item done, Inv worker done → Answered answer →
    workers.encodes item = true →
    Inv (workers.fetched worker answer item).1
      (done ++ (workers.fetched worker answer item).2.1)
  restart : ∀ worker answer done, Inv worker done → Answered answer →
    Inv (workers.restart worker answer) done

theorem keeps_step {Inv : σ → List (List Item) → Prop}
    (kept : workers.Keeps Inv Allowed Answered)
    {history : List (Report Peer Item Outcome)} {name : Peer}
    (holds : Inv (net.hosts name).worker (pushes name history))
    {move : Move Peer Input Request Answer}
    (admitted : net.Admits Allowed Answered move) :
    Inv ((net.step workers key move).1.hosts name).worker
      (pushes name (history ++ (net.step workers key move).2)) := by
  have works := net.works_step workers key move name
  rw [pushes_append]
  generalize ((net.step workers key move).1.hosts name).worker = next,
    (net.step workers key move).2 = reports at works ⊢
  cases works with
  | idle silent =>
      rw [silent, List.append_nil]
      exact holds
  | act input =>
      rw [pushes_pushed, if_pos rfl]
      exact kept.act _ input _ holds admitted
  | take index pick answer travelling encodes mine =>
      rw [pushes_received, pushes_pushed, if_pos rfl]
      exact kept.take _ answer _ _ holds admitted encodes
  | serve host request pick answer silent =>
      rw [silent, List.append_nil]
      exact kept.serve _ request _ holds
  | fetch request pick answer item encodes other =>
      rw [pushes_fetched, pushes_pushed, if_pos rfl]
      exact kept.fetched _ answer item _ holds admitted encodes
  | restart answer =>
      rw [pushes_nil, List.append_nil]
      exact kept.restart _ answer _ holds admitted

theorem keeps_run {Inv : σ → List (List Item) → Prop}
    (kept : workers.Keeps Inv Allowed Answered)
    (initially : ∀ name, Inv (net.hosts name).worker [])
    {moves : List (Move Peer Input Request Answer)}
    (admitted : StepsMeet (Network.step workers key)
      (Network.Admits Allowed Answered) net moves) (name : Peer) :
    Inv ((execute (Network.step workers key) net moves).1.hosts name).worker
      (pushes name (execute (Network.step workers key) net moves).2) := by
  refine execute_induction (Network.step workers key)
    (Network.Admits Allowed Answered)
    (fun _ net history =>
      ∀ name, Inv (net.hosts name).worker (pushes name history)) ?_ initially
    admitted name
  intro _ net history move holds admitted name
  exact keeps_step kept (holds name) admitted

end Steps

end Plasma.Lib.Gossip
