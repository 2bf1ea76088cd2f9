/-!
# `CellLisp.Library` — the core library

Source text that every new system evaluates first, unless it is told not to.  It builds
the usual definition and control forms from the special forms and the built-in
procedures; a definition uses earlier ones only.

    defmacro, defun, defvar, defconst, lambda
    when, unless, and, or, cond, let*, while
    length, reverse, append, map, foldl, nth, cadr, cddr, caar, cdar, assoc
    print-line

`defun` declares its name while compiling, so that the body and later forms see the
arity.  A clause of `cond` without a body yields the value of its test.
-/

namespace CellLisp.Library

/-- Forms that define: `defmacro`, `defun`, `defvar`, `defconst`, `lambda`. -/
def definitionForms : String :=
"(set! defmacro
  (named-lambda defmacro (name params . body)
    (list 'comptime
          (list 'set! name (cons 'named-lambda (cons name (cons params body))))
          (list 'declare! (list 'quote name) ''macro)
          (list 'quote name))))
(declare! 'defmacro 'macro)

(set! params-arity
  (named-lambda params-arity (params)
    (let ((n 0))
      (with-cont done
        (loop
          (if (cons? params)
              (do (set! n (+ n 1))
                  (set! params (cdr params)))
              (exit done (if (nil? params) n (- -1 n)))))))))
(declare! 'params-arity 'function 1)

(defmacro defun (name params . body)
  (list 'do
        (list 'comptime
              (list 'declare! (list 'quote name) ''function (params-arity params)))
        (list 'set! name (cons 'named-lambda (cons name (cons params body))))
        (list 'quote name)))

(defmacro defvar (name . init)
  (list 'do
        (list 'comptime (list 'declare! (list 'quote name) ''variable))
        (list 'set! name (if (cons? init) (car init) ()))
        (list 'quote name)))

(defmacro defconst (name value)
  (list 'do
        (list 'set! name value)
        (list 'comptime (list 'declare! (list 'quote name) ''constant))
        (list 'quote name)))

(defmacro lambda (params . body)
  (cons 'named-lambda (cons () (cons params body))))
"

/-- Forms of control, all of them expanders. -/
def controlForms : String :=
"(defmacro when (test . body)
  (list 'if test (cons 'do body)))

(defmacro unless (test . body)
  (list 'if test () (cons 'do body)))

(defmacro and forms
  (if (nil? forms)
      't
      (if (nil? (cdr forms))
          (car forms)
          (list 'if (car forms) (cons 'and (cdr forms)) ()))))

(defmacro or forms
  (if (nil? forms)
      ()
      (if (nil? (cdr forms))
          (car forms)
          (let ((g (gensym)))
            (list 'let (list (list g (car forms)))
                  (list 'if g g (cons 'or (cdr forms))))))))

(defmacro cond clauses
  (if (nil? clauses)
      ()
      (let ((c (car clauses)))
        (if (nil? (cdr c))
            (list 'or (car c) (cons 'cond (cdr clauses)))
            (list 'if (car c) (cons 'do (cdr c)) (cons 'cond (cdr clauses)))))))

(defmacro let* (binds . body)
  (if (nil? binds)
      (cons 'do body)
      (if (nil? (cdr binds))
          (cons 'let (cons binds body))
          (list 'let (list (car binds)) (cons 'let* (cons (cdr binds) body))))))

(defmacro while (test . body)
  (let ((k (gensym)))
    (list 'with-cont k
          (cons 'loop (cons (list 'if (list 'not test) (list 'exit k)) body)))))
"

/-- Procedures on lists. -/
def listProcedures : String :=
"(defun length (l)
  \"Number of elements in a list\"
  (let ((n 0))
    (while (cons? l)
      (set! n (+ n 1))
      (set! l (cdr l)))
    n))

(defun reverse (l)
  \"New list with the elements of a list in reverse order\"
  (let ((r ()))
    (while (cons? l)
      (set! r (cons (car l) r))
      (set! l (cdr l)))
    r))

(defun append (a b)
  \"Copy of list a followed by b, which is shared\"
  (let ((r (reverse a)))
    (while (cons? r)
      (set! b (cons (car r) b))
      (set! r (cdr r)))
    b))

(defun map (f l)
  \"List of the results of calling f on each element of l\"
  (let ((r ()))
    (while (cons? l)
      (set! r (cons (f (car l)) r))
      (set! l (cdr l)))
    (reverse r)))

(defun foldl (f acc l)
  (while (cons? l)
    (set! acc (f acc (car l)))
    (set! l (cdr l)))
  acc)

(defun nth (n l)
  (while (> n 0)
    (set! l (cdr l))
    (set! n (- n 1)))
  (car l))

(defun cadr (l) (car (cdr l)))
(defun cddr (l) (cdr (cdr l)))
(defun caar (l) (car (car l)))
(defun cdar (l) (cdr (car l)))

(defun assoc (key alist)
  \"First pair in alist whose car is equal to key\"
  (with-cont found
    (while (cons? alist)
      (when (equal? (caar alist) key)
        (exit found (car alist)))
      (set! alist (cdr alist)))
    ()))
"

/-- Procedures for output. -/
def outputProcedures : String :=
"(defun print-line (val)
  (print val)
  (newline)
  val)
"

/-- The whole library. -/
def source : String :=
  definitionForms ++ controlForms ++ listProcedures ++ outputProcedures

end CellLisp.Library
