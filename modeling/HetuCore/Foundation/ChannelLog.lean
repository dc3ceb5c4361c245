/-! Logs of what arrives on several channels: data and numbered markers. For each channel
the log holds the events of that channel in order, whatever the interleaving. -/
namespace HetuCore.Foundation
open List

inductive Event (δ : Type) where
  | data (d : δ)
  | marker (id : Int)
deriving DecidableEq, Repr

def Event.markerId {δ : Type} : Event δ → Option Int
  | .data _ => none
  | .marker id => some id

abbrev ChannelLog (κ δ : Type) := List (κ × Event δ)

namespace ChannelLog
variable {κ δ : Type}

def data : ChannelLog κ δ → List (κ × δ)
  | [] => []
  | (k,.data d) :: log => (k,d) :: data log
  | (_,.marker _) :: log => data log

theorem data_append (log more : ChannelLog κ δ) : data (log ++ more) = data log ++ data more := by
  induction log with
  | nil => rfl
  | cons e log ih =>
    obtain ⟨k,d | id⟩ := e
    · exact congrArg (cons (k,d)) ih
    · exact ih

variable [DecidableEq κ] (c : κ)

def events (log : ChannelLog κ δ) : List (Event δ) := (log.filter fun e => e.1 = c).map Prod.snd

def ofChannel (items : List (κ × δ)) : List δ := (items.filter fun e => e.1 = c).map Prod.snd

theorem ofChannel_append (items more : List (κ × δ)) :
    ofChannel c (items ++ more) = ofChannel c items ++ ofChannel c more := by
  simp [ofChannel]

def content : List (Event δ) → List δ
  | [] => []
  | .data d :: events => d :: content events
  | .marker _ :: events => content events

def before (id : Int) : List (Event δ) → List δ
  | [] => []
  | .data d :: events => d :: before id events
  | .marker j :: events => if j = id then [] else before id events

def after (id : Int) : List (Event δ) → List (Event δ)
  | [] => []
  | .data _ :: events => after id events
  | .marker j :: events => if j = id then events else after id events

theorem content_append (events more : List (Event δ)) : content (events ++ more) = content events ++ content more := by
  induction events with
  | nil => rfl
  | cons e events ih =>
    cases e with
    | data d => exact congrArg (cons d) ih
    | marker j => exact ih

theorem before_append_content_after (id : Int) (events : List (Event δ)) :
    before id events ++ content (after id events) = content events := by
  induction events with
  | nil => rfl
  | cons e events ih =>
    cases e with
    | data d => exact congrArg (cons d) ih
    | marker j =>
      rw [before,after]
      split
      · rfl
      · exact ih

variable {id : Int}

theorem before_append {events : List (Event δ)} (h : .marker id ∈ events) (more : List (Event δ)) :
    before id (events ++ more) = before id events := by
  induction events with
  | nil => cases h
  | cons e events ih =>
    cases e with
    | data d =>
      have hr : .marker id ∈ events := by simpa using h
      exact congrArg (cons d) (ih hr)
    | marker j =>
      rw [cons_append,before,before]
      split
      · rfl
      · rename_i hj
        have hr : .marker id ∈ events := by simpa [Ne.symm hj] using h
        exact ih hr

theorem before_append_marker (id j : Int) (events : List (Event δ)) :
    before id (events ++ [.marker j]) = before id events := by
  induction events with
  | nil => simp [before]
  | cons e events ih =>
    cases e with
    | data d => exact congrArg (cons d) ih
    | marker k =>
      rw [cons_append,before,before,ih]

theorem before_eq_content {events : List (Event δ)} (h : .marker id ∉ events) :
    before id events = content events := by
  induction events with
  | nil => rfl
  | cons e events ih =>
    have hr : .marker id ∉ events := fun hm => h (mem_cons_of_mem _ hm)
    cases e with
    | data d => exact congrArg (cons d) (ih hr)
    | marker j =>
      have hj : j ≠ id := by
        rintro rfl
        exact h (mem_cons_self ..)
      rw [before,if_neg hj]
      exact ih hr

theorem events_append (log more : ChannelLog κ δ) : events c (log ++ more) = events c log ++ events c more := by
  simp [events]

variable {log : ChannelLog κ δ} {c : κ}

theorem mem_events {e : Event δ} : e ∈ events c log ↔ (c,e) ∈ log := by
  simp [events]

instance decidableMarkersBelow (c : κ) (id : Int) (log : ChannelLog κ δ) :
    Decidable (∀ j, (c,.marker j) ∈ log → j < id) :=
  decidable_of_iff (∀ e ∈ log, e.1 = c → ∀ j ∈ e.2.markerId, j < id) <| by
    constructor
    · intro h j hj
      exact h _ hj rfl j rfl
    · rintro h ⟨k,d | i⟩ he rfl j hj
      · cases hj
      · cases hj
        exact h i he

theorem content_events (c : κ) (log : ChannelLog κ δ) : content (events c log) = ofChannel c (data log) := by
  induction log with
  | nil => rfl
  | cons e log ih =>
    obtain ⟨k,d | id⟩ := e
    · by_cases hk : k = c
      · simp only [events,ofChannel,data,hk,filter_cons_of_pos,decide_true]
        exact congrArg (cons d) ih
      · simpa [events,ofChannel,data,hk] using ih
    · by_cases hk : k = c
      · simpa [events,data,hk,content] using ih
      · simpa [events,data,hk] using ih

/-- What was taken before the cut and what was taken from the channel while it was open make
up what precedes the channel's marker. -/
def Covers (id : Int) (c : κ) (taken : List (κ × δ)) (log : ChannelLog κ δ) : Prop :=
  ofChannel c taken = before id (events c log)

theorem mem_of_mem_before {d : δ} {events : List (Event δ)} (h : d ∈ before id events) : .data d ∈ events := by
  induction events with
  | nil => cases h
  | cons e events ih =>
    cases e with
    | data d' =>
      obtain rfl | h := mem_cons.mp h
      · exact mem_cons_self ..
      · exact mem_cons_of_mem _ (ih h)
    | marker j =>
      rw [before] at h
      split at h
      · cases h
      · exact mem_cons_of_mem _ (ih h)

variable {taken : List (κ × δ)}

theorem Covers.mem_log (h : Covers id c taken log) {d : δ} (hd : (c,d) ∈ taken) : (c,.data d) ∈ log := by
  rw [← mem_events]
  have hb : d ∈ before id (events c log) := by
    rw [← h]
    exact mem_map.mpr ⟨(c,d),mem_filter.mpr ⟨hd,by simp⟩,rfl⟩
  exact mem_of_mem_before hb

theorem Covers.data_open (h : Covers id c taken log) (ho : (c,.marker id) ∉ log) (k : κ) (d : δ) (hk : k = c) :
    Covers id c (taken ++ [(k,d)]) (log ++ [(k,.data d)]) := by
  subst hk
  have hn : .marker id ∉ events k (log ++ [(k,.data d)]) := by simpa [mem_events] using ho
  have hb : .marker id ∉ events k log := by simpa [mem_events] using ho
  rw [Covers,before_eq_content hb] at h
  rw [Covers,before_eq_content hn,events_append,content_append,ofChannel_append,h]
  simp [ofChannel,events,content]

/-- An event that brings no data for the channel, or comes after its marker, changes nothing. -/
theorem Covers.other (h : Covers id c taken log)
    (e : κ × Event δ) (he : e.1 ≠ c ∨ (c,.marker id) ∈ log ∨ ∃ j, e.2 = .marker j) : Covers id c taken (log ++ [e]) := by
  rw [Covers] at h ⊢
  rw [h,events_append]
  obtain ⟨k,x⟩ := e
  by_cases hc : k = c
  · obtain hne | hm | ⟨j,hj⟩ := he
    · exact absurd hc hne
    · rw [before_append (mem_events.mpr hm)]
    · have ho : events c [(k,x)] = [.marker j] := by simpa [events,hc] using hj
      rw [ho,before_append_marker]
  · simp [events,hc]

end ChannelLog
end HetuCore.Foundation
