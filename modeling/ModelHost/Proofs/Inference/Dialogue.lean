import Mathlib.Control.Monad.Basic
import ModelHost.Proofs.Inference.Session

/-!
Dialogues with a program that runs models. A dialogue asks one question after the other, goes on by
the replies, and hands on chunks of text in between. Nothing but replies tells it which model and
context it talks to, so with those that reply alike it comes to the same point. A careful dialogue
ends as soon as it is refused something.
-/

namespace ModelHost

inductive Question where
  | tokenize (text : String)
  | piece (token : Token)
  | endToken
  | window
  | call (call : Call)
deriving DecidableEq

namespace Question

def Reply : Question → Type
  | tokenize _ => Except Cause (List Token)
  | piece _ => Except Cause (List UInt8)
  | endToken => Token
  | window => UInt32
  | call .clear => Unit
  | call (.decode _) => Except Cause Unit
  | call (.logits _) => Option (List Single)

instance : (q : Question) → DecidableEq q.Reply
  | tokenize _ => inferInstanceAs (DecidableEq (Except Cause (List Token)))
  | piece _ => inferInstanceAs (DecidableEq (Except Cause (List UInt8)))
  | endToken => inferInstanceAs (DecidableEq Token)
  | window => inferInstanceAs (DecidableEq UInt32)
  | call .clear => inferInstanceAs (DecidableEq Unit)
  | call (.decode _) => inferInstanceAs (DecidableEq (Except Cause Unit))
  | call (.logits _) => inferInstanceAs (DecidableEq (Option (List Single)))

def Refuses : (q : Question) → q.Reply → Prop
  | tokenize _, reply => ∃ cause, reply = Except.error cause
  | piece _, reply => ∃ cause, reply = Except.error cause
  | call (.decode _), reply => ∃ cause, reply = Except.error cause
  | call (.logits _), reply => reply = none ∨ reply = some []
  | endToken, _ | window, _ | call .clear, _ => False

end Question

structure Exchange where
  question : Question
  reply : question.Reply
deriving DecidableEq

def Exchange.Refused (x : Exchange) : Prop := x.question.Refuses x.reply

def Exchange.call? (x : Exchange) : Option Call :=
  match x.question with
  | .call call => some call
  | _ => none

inductive Dialogue.Event where
  | asked (x : Exchange)
  | told (chunk : String)
deriving DecidableEq

namespace Dialogue.Event

def exchange? : Event → Option Exchange
  | asked x => some x
  | told _ => none

def chunk? : Event → Option String
  | asked _ => none
  | told chunk => some chunk

def call? (event : Event) : Option Call := event.exchange?.bind Exchange.call?

end Dialogue.Event

inductive Dialogue (A : Type) where
  | conclude (result : A)
  | tell (chunk : String) (next : Dialogue A)
  | ask (question : Question) (next : question.Reply → Dialogue A)

namespace Inference

variable {M C : Type} (inference : Inference M C) (model : M)

def reply (context : C) : (q : Question) → q.Reply
  | .tokenize text => inference.tokenize model text
  | .piece token => inference.piece model token
  | .endToken => inference.endToken model
  | .window => inference.window context
  | .call .clear => ()
  | .call (.decode b) => (inference.decode context b).1
  | .call (.logits index) => inference.logits context index

def afterQuestion (context : C) : Question → C
  | .call call => inference.afterCall context call
  | _ => context

def Gives (context : C) : List Exchange → Prop
  | [] => True
  | x :: exchanges =>
    inference.reply model context x.question = x.reply ∧
      Gives (inference.afterQuestion context x.question) exchanges

instance decidableGives : (context : C) → (exchanges : List Exchange) →
    Decidable (inference.Gives model context exchanges)
  | _, [] => .isTrue trivial
  | context, x :: exchanges =>
    have := decidableGives (inference.afterQuestion context x.question) exchanges
    inferInstanceAs (Decidable (_ ∧ _))

end Inference

structure Dialogue.Played (A : Type) where
  result : A
  log : List Event

namespace Dialogue

variable {A : Type}

namespace Played

def chunks (p : Played A) : List String := p.log.filterMap Event.chunk?

def calls (p : Played A) : List Call := p.log.filterMap Event.call?

def after (p : Played A) (events : List Event) : Played A := { p with log := events ++ p.log }

theorem chunks_told (p : Played A) (chunks : List String) :
    (p.after (chunks.map .told)).chunks = chunks ++ p.chunks := by
  simp [after, Played.chunks, Function.comp_def, Event.chunk?]

theorem calls_told (p : Played A) (chunks : List String) :
    (p.after (chunks.map .told)).calls = p.calls := by
  simp [after, calls, Event.call?, Event.exchange?]

theorem chunks_asked (p : Played A) (x : Exchange) :
    (p.after [.asked x]).chunks = p.chunks := rfl

theorem calls_asked (p : Played A) (x : Exchange) :
    (p.after [.asked x]).calls = x.call?.toList ++ p.calls := by
  cases hcall : x.call? <;> simp [after, calls, Event.call?, Event.exchange?, hcall]

end Played

def tells (chunks : List String) (next : Dialogue A) : Dialogue A := chunks.foldr tell next

section Play

variable {M C : Type} (inference : Inference M C) (model : M)

def play : Dialogue A → C → Played A
  | conclude result, _ => ⟨result, []⟩
  | tell chunk next, context => (next.play context).after [.told chunk]
  | ask question next, context =>
    let reply := inference.reply model context question
    ((next reply).play (inference.afterQuestion context question)).after [.asked ⟨question, reply⟩]

theorem play_ask {question : Question} {reply : question.Reply} {context : C}
    (h : inference.reply model context question = reply) (next : question.Reply → Dialogue A) :
    (ask question next).play inference model context =
      ((next reply).play inference model (inference.afterQuestion context question)).after
        [.asked ⟨question, reply⟩] := by
  subst h
  rfl

theorem play_tells (chunks : List String) (next : Dialogue A) (context : C) :
    (tells chunks next).play inference model context =
      (next.play inference model context).after (chunks.map .told) := by
  induction chunks with
  | nil => rfl
  | cons chunk chunks ih =>
    rw [tells, List.foldr_cons, play, ← tells, ih]
    rfl

end Play

section Alike

variable {M C M' C' : Type} {inference : Inference M C} {inference' : Inference M' C'} {model : M}
  {model' : M'}

/-- A dialogue comes to the same question with all who give the same replies until then, and goes on
by the reply they give to that one. -/
theorem play_alike {d : Dialogue A} {context : C} {context' : C'} {before after : List Event}
    {x : Exchange} {reply : x.question.Reply}
    (hlog : (d.play inference model context).log = before ++ .asked x :: after)
    (halike : inference'.Gives model' context'
      (before.filterMap Event.exchange? ++ [⟨x.question, reply⟩])) :
    ∃ after', (d.play inference' model' context').log =
      before ++ .asked ⟨x.question, reply⟩ :: after' := by
  induction d generalizing context context' before with
  | conclude result =>
    cases before with
    | nil => nomatch hlog
    | cons event before => nomatch hlog
  | tell chunk next ih =>
    cases before with
    | nil => nomatch hlog
    | cons event before =>
      obtain ⟨rfl, hrest⟩ := List.cons.inj hlog
      obtain ⟨after', hrest'⟩ := ih hrest halike
      exact ⟨after', congrArg (Event.told chunk :: ·) hrest'⟩
  | ask question next ih =>
    cases before with
    | nil =>
      obtain ⟨hasked, -⟩ := List.cons.inj hlog
      obtain rfl := Event.asked.inj hasked
      rw [play_ask inference' model' halike.1]
      exact ⟨_, rfl⟩
    | cons event before =>
      obtain ⟨rfl, hrest⟩ := List.cons.inj hlog
      obtain ⟨hreply, hlater⟩ := halike
      obtain ⟨after', hrest'⟩ := ih _ hrest hlater
      rw [play_ask inference' model' hreply]
      exact ⟨after', congrArg (Event.asked _ :: ·) hrest'⟩

end Alike

section Careful

variable {E : Type} (Reports : E → Exchange → Prop)

/-- Says that a dialogue ends with an error that reports it as soon as it is refused something. -/
def Careful : Dialogue (Except E A) → Prop
  | conclude _ => True
  | tell _ next => Careful next
  | ask question next => ∀ reply, Careful (next reply) ∧ (question.Refuses reply →
      ∃ error, Reports error ⟨question, reply⟩ ∧ next reply = conclude (.error error))

variable {Reports} {M C : Type} {inference : Inference M C} {model : M}

theorem careful_tells {chunks : List String} {next : Dialogue (Except E A)}
    (h : next.Careful Reports) : (tells chunks next).Careful Reports := by
  induction chunks with
  | nil => exact h
  | cons chunk chunks ih => exact ih

theorem Careful.refused {d : Dialogue (Except E A)} (h : d.Careful Reports) {context : C}
    {before after : List Event} {x : Exchange}
    (hlog : (d.play inference model context).log = before ++ .asked x :: after)
    (hrefused : x.Refused) :
    after = [] ∧
      ∃ error, Reports error x ∧ (d.play inference model context).result = .error error := by
  induction d generalizing context before with
  | conclude result =>
    cases before with
    | nil => nomatch hlog
    | cons event before => nomatch hlog
  | tell chunk next ih =>
    cases before with
    | nil => nomatch hlog
    | cons event before => exact ih h (List.cons.inj hlog).2
  | ask question next ih =>
    obtain ⟨hnext, hrefuse⟩ := h (inference.reply model context question)
    cases before with
    | nil =>
      obtain ⟨hasked, hafter⟩ := List.cons.inj hlog
      obtain rfl := Event.asked.inj hasked
      obtain ⟨error, hreports, hconclude⟩ := hrefuse hrefused
      rw [hconclude] at hafter
      rw [play, hconclude]
      exact ⟨hafter.symm, error, hreports, rfl⟩
    | cons event before => exact ih _ hnext (List.cons.inj hlog).2

end Careful

end Dialogue

end ModelHost
