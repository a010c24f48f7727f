import Mathlib

/-!
# A connection with one open transaction

What a connection sees runs ahead of what is durable: statements change the
former, a commit makes everything pending durable, and a process that ends without
one loses it. An exception changes neither.
-/

/-- A connection to a store with states of type `σ`. -/
structure Conn (σ : Type) where
  durable : σ
  working : σ

namespace Conn

variable {σ : Type}

def connect (s : σ) : Conn σ := ⟨s, s⟩

def exec (c : Conn σ) (statement : σ → σ) : Conn σ :=
  { c with working := statement c.working }

def commit (c : Conn σ) : Conn σ := { c with durable := c.working }

@[simp] theorem connect_durable (s : σ) : (connect s).durable = s := rfl
@[simp] theorem connect_working (s : σ) : (connect s).working = s := rfl
@[simp] theorem exec_durable (c : Conn σ) : (c.exec f).durable = c.durable := rfl
@[simp] theorem exec_working (c : Conn σ) : (c.exec f).working = f c.working := rfl
@[simp] theorem commit_durable (c : Conn σ) : c.commit.durable = c.working := rfl
@[simp] theorem commit_working (c : Conn σ) : c.commit.working = c.working := rfl

end Conn
